import SsaOpt.Ir.Fingerprint

/-!
# Listings

A listing is a module as it is handed over: its functions in order, where a place may be vacant. A
listing without vacant places is a module (`module?`, and `ofModule` for the way back).

Some work can be done on a listing with vacant places. It has a text, and a search by name that goes
from the front ends well if it finds the function before it comes to a vacant place.
-/

namespace SsaOpt

/-- A module in which places among the functions may be vacant. -/
structure Listing where
  name : String
  places : List (Option Function) := []
deriving DecidableEq

namespace Listing

/-- A module as a listing. -/
def ofModule (m : Module) : Listing where
  name := m.name
  places := m.functions.map some

/-- Whether no place is vacant. -/
def isComplete (l : Listing) : Bool := l.places.all Option.isSome

/-- What stands in front of the first vacant place. -/
def front (l : Listing) : Module where
  name := l.name
  functions := (l.places.takeWhile Option.isSome).filterMap id

/-- The module, if no place is vacant. -/
def module? (l : Listing) : Option Module := if l.isComplete then some l.front else none

/-- The function at a position. -/
def function? (l : Listing) (i : Nat) : Option Function := l.places[i]?.join

/-- Puts a function in its place. -/
def setFunction (i : Nat) (fn : Function) (l : Listing) : Listing :=
  { l with places := l.places.set i (some fn) }

/-- Whether a search for the function of a name comes to an end: it finds one, or sees them all. -/
def canSearch (l : Listing) (name : String) : Bool :=
  l.isComplete || (l.front.function? name).isSome

/-- Whether it can be told if an instruction is critical. A call may need a search. -/
def canJudge (l : Listing) (i : Instr) : Bool :=
  i.isCritical || match i with
    | .call c => l.canSearch c.target
    | _ => true

/-- A listing as text. -/
def render (l : Listing) : String := Module.renderSlots l.name l.places

/-- The fingerprint of a listing: the hash of its text. -/
def fingerprint (l : Listing) : UInt64 := XxHash.hash (Text.utf8Bytes l.render)

/-! ## Modules as listings -/

@[simp] theorem isComplete_ofModule (m : Module) : (ofModule m).isComplete = true := by
  simp [isComplete, ofModule]

@[simp] theorem front_ofModule (m : Module) : (ofModule m).front = m := by
  have h : (m.functions.map some).takeWhile Option.isSome = m.functions.map some := by
    induction m.functions with
    | nil => rfl
    | cons fn rest ih => simp [ih]
  simp [front, ofModule, h, List.filterMap_map]

@[simp] theorem module?_ofModule (m : Module) : (ofModule m).module? = some m := by
  simp [module?]

@[simp] theorem render_ofModule (m : Module) : (ofModule m).render = m.render := rfl

@[simp] theorem fingerprint_ofModule (m : Module) : (ofModule m).fingerprint = m.fingerprint := rfl

end Listing

/-- A listing that may be missing, as text. -/
def renderListing : Option Listing → String
  | some l => l.render
  | none => ""

end SsaOpt
