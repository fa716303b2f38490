import SsaOpt.Error

/-!
# Diagnostics

What the user is told: a message with a severity, a code, the pass it comes from, labelled places in
the module, notes and help. A bag collects diagnostics in the order in which they are raised.
-/

namespace SsaOpt

/-- How bad it is. -/
inductive Severity where
  | error
  | warning
  | info
  | hint
  /-- A number that stands for no severity. -/
  | unlisted
deriving DecidableEq, Repr

namespace Severity

/-- The severity of a number. -/
def ofNumber (n : Int) : Severity :=
  if n = 0 then error else if n = 1 then warning else if n = 2 then info
  else if n = 3 then hint else unlisted

/-- The name of a severity. -/
def name : Severity → String
  | error => "error"
  | warning => "warning"
  | info => "info"
  | hint => "hint"
  | unlisted => "unknown"

end Severity

/-- A place in a module: a function, and a block of it. -/
structure Location where
  function : String := ""
  block : String := ""
deriving DecidableEq, Repr

/-- The place in words. -/
def Location.render (l : Location) : String :=
  if l.function = "" then "<module>"
  else if l.block = "" then "fn " ++ l.function
  else s!"fn {l.function}, block {l.block}"

/-- The role of a label. -/
inductive LabelStyle where
  /-- The place the diagnostic is about. -/
  | primary
  /-- Some context. -/
  | secondary
  /-- A number that stands for no role. -/
  | unlisted (number : Int)
deriving DecidableEq, Repr

namespace LabelStyle

/-- The style of a number. -/
def ofNumber (n : Int) : LabelStyle :=
  if n = 0 then primary else if n = 1 then secondary else unlisted n

/-- The number of a style. -/
def number : LabelStyle → Int
  | primary => 0
  | secondary => 1
  | unlisted n => n

end LabelStyle

/-- A labelled place. -/
structure Label where
  location : Location
  message : String
  style : LabelStyle
deriving DecidableEq, Repr

/-- A diagnostic. -/
structure Diagnostic where
  severity : Severity
  message : String
  code : String := ""
  pass : String := ""
  labels : List Label := []
  notes : List String := []
  help : String := ""
deriving DecidableEq, Repr

namespace Diagnostic

/-- An error with a message. -/
def error (message : String) : Diagnostic := { severity := .error, message }

/-- A warning with a message. -/
def warning (message : String) : Diagnostic := { severity := .warning, message }

/-- Whether the diagnostic says what place it is about. -/
def hasPrimary (d : Diagnostic) : Bool := d.labels.any fun l => l.style = .primary

/-- Says what place the diagnostic is about, in front of all labels. Only the first time counts. -/
def withPrimary (location : Location) (message : String) (d : Diagnostic) : Diagnostic :=
  if d.hasPrimary then d else { d with labels := ⟨location, message, .primary⟩ :: d.labels }

/-- Adds a label at the end. -/
def withLabel (label : Label) (d : Diagnostic) : Diagnostic :=
  { d with labels := d.labels ++ [label] }

/-- What is said about a context label without a primary one. -/
def noPrimary : String :=
  "Cannot add secondary label without primary label. Call WithPrimaryLabel first."

/-- Adds a context label; there must be a primary one. -/
def withSecondary? (location : Location) (message : String) (d : Diagnostic) :
    Except String Diagnostic :=
  if d.hasPrimary then .ok (d.withLabel ⟨location, message, .secondary⟩) else .error noPrimary

/-- Adds a note. -/
def withNote (message : String) (d : Diagnostic) : Diagnostic :=
  { d with notes := d.notes ++ [message] }

/-- The diagnostic of an error. A classified failure gives its code, pass and function; its cause
becomes the notes. Any other error is just its message. -/
def ofErr (e : Err) : Diagnostic :=
  match e.failure? with
  | none => error e.message
  | some (f, cause) =>
    let detail := if f.detail = "" then "" else ": " ++ f.detail
    let base : Diagnostic :=
      { severity := .error, message := f.kind.name ++ detail, code := f.kind.code, pass := f.pass,
        notes := ((cause.map Err.parts).getD []).map Err.message, help := f.kind.help }
    if f.function = "" then base
    else base.withPrimary ⟨f.function, ""⟩ "while processing this function"

end Diagnostic

/-- Diagnostics in the order in which they were raised. -/
abbrev Bag := List Diagnostic

namespace Bag

/-- The number of errors. -/
def errorCount (bag : Bag) : Nat := bag.countP fun d => d.severity = .error

/-- The number of warnings. -/
def warningCount (bag : Bag) : Nat := bag.countP fun d => d.severity = .warning

/-- Adds the diagnostic of an error. -/
def addErr (e : Err) (bag : Bag) : Bag := bag ++ [Diagnostic.ofErr e]

end Bag

end SsaOpt
