import SsaOpt.Diagnostic.Printer

/-!
# Drafts

A diagnostic that is still being written can be put into a bag before it is finished: the bag then
shows what it becomes. A draft keeps the diagnostic being written together with the bag, in which an
empty place shows the current state of the diagnostic.
-/

namespace SsaOpt

/-- A diagnostic being written, and a bag that may show it. -/
structure Draft where
  current : Diagnostic := Diagnostic.error ""
  held : List (Option Diagnostic) := []

namespace Draft

/-- What the bag shows now. -/
def bag (d : Draft) : Bag := d.held.map fun place => place.getD d.current

/-- Starts another diagnostic; the places of the former one keep what it has become. -/
def start (new : Diagnostic) (d : Draft) : Draft := ⟨new, d.bag.map some⟩

/-- Changes the current diagnostic. -/
def edit (f : Diagnostic → Diagnostic) (d : Draft) : Draft := { d with current := f d.current }

/-- Puts the current diagnostic into the bag. -/
def add (d : Draft) : Draft := { d with held := d.held ++ [none] }

/-- Puts the diagnostic of an error into the bag. -/
def addErr (e : Err) (d : Draft) : Draft := { d with held := d.held ++ [some (.ofErr e)] }

/-- Empties the bag. -/
def clear (d : Draft) : Draft := { d with held := [] }

end Draft

end SsaOpt
