/-!
# Phases

How far a module has come in a run of the pipeline. Phases follow one another in one order, and a
module only ever moves to the next one.
-/

namespace SsaOpt

/-- How far a module has come. -/
inductive Phase where
  | notStarted
  /-- Read or handed in. -/
  | loaded
  /-- Found free of defects. -/
  | verified
  /-- All passes have run. -/
  | optimized
  /-- Written back. -/
  | written
  /-- A number that stands for no phase. -/
  | unlisted
deriving DecidableEq, Repr

namespace Phase

/-- The phase of a number. -/
def ofNumber (n : Int) : Phase :=
  if n = 0 then notStarted else if n = 1 then loaded else if n = 2 then verified
  else if n = 3 then optimized else if n = 4 then written else unlisted

/-- The name of a phase. -/
def name : Phase → String
  | notStarted => "NotStarted"
  | loaded => "Loaded"
  | verified => "Verified"
  | optimized => "Optimized"
  | written => "Written"
  | unlisted => "Unknown"

/-- The phase before. -/
def before? : Phase → Option Phase
  | loaded => some notStarted
  | verified => some loaded
  | optimized => some verified
  | written => some optimized
  | _ => none

/-- Whether a module in the phase `start` may move to the phase `goal`. -/
def canAdvance (start goal : Phase) : Bool := goal.before? = some start

end Phase

end SsaOpt
