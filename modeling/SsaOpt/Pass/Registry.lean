import SsaOpt.Pass.Basic

/-!
# The registry of passes

A registry holds passes twice: in the order of registration, and by name. Passes are registered one
by one or in batches. A name that is in use already, or a requirement that nobody meets, is found
before anything is changed. Then the passes are entered, and each of them is asked whether it agrees
to be registered. If one does not, they are all taken out again.
-/

namespace SsaOpt

variable {σ : Type}

namespace Manager

/-- The failure to register a name again. -/
def duplicateErr (name : String) : Err :=
  .failed { kind := .duplicatePass, pass := name
            detail := s!"pass {Text.quote name} is already registered" }

/-- The failure to find what a pass requires. -/
def missingErr (name required : String) : Err :=
  let detail := s!"pass {Text.quote name} requires {Text.quote required}, which is not registered"
  .failed { kind := .missingPassDependency, pass := name, detail }

/-- The first name of a batch that is registered or comes twice. -/
def firstRepeat? (registered : List String) : List String → Option String
  | [] => none
  | n :: rest => if registered.contains n then some n else firstRepeat? (n :: registered) rest

/-- The first requirement of a batch that is not among `known`. -/
def firstMissing? (world : σ) (known : List String) (batch : List (Pass σ)) : Option Err :=
  batch.findSome? fun p =>
    ((p.requires world).find? fun r => !known.contains r).map (missingErr p.name)

end Manager

/-- The refusal of a pass to be registered, in words of its own. -/
def Pass.registrationRefusal? (checker : Checker) (p : Pass σ) : Option Err :=
  (p.registrationErr? ⟨some checker, p.name⟩).map fun e => .context s!"registering pass {p.name}" e

/-- The registered passes. -/
structure Registry (σ : Type) where
  /-- The passes in the order of registration. -/
  passes : List (Pass σ) := []
  /-- The passes by name. -/
  index : List (String × Pass σ) := []

namespace Registry

/-- The names in the index. -/
def names (r : Registry σ) : List String := r.index.map Prod.fst

/-- Takes a name out of an index. -/
def erase (index : List (String × Pass σ)) (name : String) : List (String × Pass σ) :=
  index.filter fun e => e.1 ≠ name

/-- Enters a pass under its name. -/
def insert (r : Registry σ) (p : Pass σ) : Registry σ where
  passes := r.passes ++ [p]
  index := erase r.index p.name ++ [(p.name, p)]

/-- Takes the last `n` passes out again, and their names. -/
def rollback (r : Registry σ) (n : Nat) : Registry σ where
  passes := r.passes.take (r.passes.length - n)
  index := ((r.passes.drop (r.passes.length - n)).map Pass.name).foldl erase r.index

/-- Registers some passes, which may require what is among `known`: what is wrong with them, and the
registry afterwards. -/
def add (checker : Checker) (world : σ) (known : List String) (r : Registry σ)
    (batch : List (Pass σ)) : Option Err × Registry σ :=
  match Manager.firstRepeat? r.names (batch.map Pass.name) with
  | some name => (some (Manager.duplicateErr name), r)
  | none =>
    match Manager.firstMissing? world known batch with
    | some e => (some e, r)
    | none =>
      let r := batch.foldl insert r
      match batch.findSome? (Pass.registrationRefusal? checker) with
      | some e => (some e, r.rollback batch.length)
      | none => (none, r)

/-- Registers one pass, all of whose requirements must be registered already. -/
def addOne (checker : Checker) (world : σ) (r : Registry σ) (p : Pass σ) :
    Option Err × Registry σ :=
  r.add checker world r.names [p]

/-- Registers a batch. Its passes may require each other, whatever their order. -/
def addBatch (checker : Checker) (world : σ) (r : Registry σ) (batch : List (Pass σ)) :
    Option Err × Registry σ :=
  r.add checker world (r.names ++ batch.map Pass.name) batch

end Registry

end SsaOpt
