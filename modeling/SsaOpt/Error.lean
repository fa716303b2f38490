import SsaOpt.Ir.Defect

/-!
# Errors

An error is a tree. Its leaves are plain messages, bare kinds and located messages; a failure of a
pass is classified by a kind and may have a cause; a context puts words in front of an error; and
several errors can be joined. `Err.message` is the text of an error, `Err.failure?` the first
classified failure in it.
-/

namespace SsaOpt

/-! ## Kinds of failure -/

/-- The codes of the listed kinds. -/
def kindCodes : List Int64 := [1, 2, 3, 4, 5, 6, 7, 8, 9, 10, 11, 12]

/-- The kinds of failure. -/
inductive Kind where
  | missingPassDependency
  | cyclicPassDependency
  | duplicatePass
  | unsafeElimination
  | unsafeBlockElimination
  | unsafeFolding
  | typeMismatch
  | unsafeInlining
  | unsafeExceptionHandling
  | verificationFailed
  | malformedIR
  | unreportedModification
  /-- A number that stands for no kind. -/
  | unlisted (number : Int64) (isUnlisted : number ∉ kindCodes)
deriving DecidableEq

namespace Kind

/-- The number of a kind. -/
def number : Kind → Int64
  | missingPassDependency => 1
  | cyclicPassDependency => 2
  | duplicatePass => 3
  | unsafeElimination => 4
  | unsafeBlockElimination => 5
  | unsafeFolding => 6
  | typeMismatch => 7
  | unsafeInlining => 8
  | unsafeExceptionHandling => 9
  | verificationFailed => 10
  | malformedIR => 11
  | unreportedModification => 12
  | unlisted n _ => n

/-- The listed kinds, in the order of their numbers. -/
def listed : List Kind :=
  [missingPassDependency, cyclicPassDependency, duplicatePass, unsafeElimination,
    unsafeBlockElimination, unsafeFolding, typeMismatch, unsafeInlining, unsafeExceptionHandling,
    verificationFailed, malformedIR, unreportedModification]

theorem map_number_listed : listed.map number = kindCodes := rfl

theorem not_mem_of_find?_listed {n : Int64} (h : listed.find? (fun k => k.number = n) = none) :
    n ∉ kindCodes := by
  rw [← map_number_listed, List.mem_map]
  rintro ⟨k, hk, rfl⟩
  simpa using List.find?_eq_none.1 h k hk

/-- The kind of a number. -/
def ofNumber (n : Int64) : Kind :=
  match h : listed.find? fun k => k.number = n with
  | some k => k
  | none => unlisted n (not_mem_of_find?_listed h)

/-- The name of a kind. -/
def name : Kind → String
  | missingPassDependency => "missing pass dependency"
  | cyclicPassDependency => "cyclic pass dependency"
  | duplicatePass => "duplicate pass"
  | unsafeElimination => "unsafe elimination"
  | unsafeBlockElimination => "unsafe block elimination"
  | unsafeFolding => "unsafe folding"
  | typeMismatch => "type mismatch"
  | unsafeInlining => "unsafe inlining"
  | unsafeExceptionHandling => "unsafe exception handling"
  | verificationFailed => "verification failed"
  | malformedIR => "malformed IR"
  | unreportedModification => "unreported modification"
  | unlisted _ _ => "unknown"

/-- The code that diagnostics show for a kind. -/
def code : Kind → String
  | missingPassDependency => "O0001"
  | cyclicPassDependency => "O0002"
  | duplicatePass => "O0003"
  | unsafeElimination => "O0101"
  | unsafeBlockElimination => "O0102"
  | unsafeFolding => "O0103"
  | typeMismatch => "O0104"
  | unsafeInlining => "O0105"
  | unsafeExceptionHandling => "O0106"
  | verificationFailed => "O0201"
  | malformedIR => "O0202"
  | unreportedModification => "O0203"
  | unlisted _ _ => ""

/-- What to do about a failure; nothing is said about malformed input. -/
def help : Kind → String
  | missingPassDependency => "register the required pass first, or register both with AddPasses"
  | cyclicPassDependency => "break the cycle in the passes' Requires lists"
  | duplicatePass => "each pass name may be registered once"
  | unsafeElimination => "instructions with critical side effects must not be removed"
  | unsafeBlockElimination => "blocks holding critical instructions or handler entries must stay"
  | unsafeFolding => "only pure instructions may be folded"
  | typeMismatch => "the folded constant must have the instruction's declared type"
  | unsafeInlining => "callees with critical side effects must not be inlined"
  | unsafeExceptionHandling => "enable exceptions or mark the callee as non-throwing"
  | verificationFailed => "a pass produced IR that no longer verifies; this is a pass bug"
  | malformedIR => ""
  | unreportedModification => "the pass must return modified=true when it changes the module"
  | unlisted _ _ => ""

end Kind

/-! ## Error trees -/

/-- A classified failure: the pass it happened in, the function it was about, and a detail, each
empty if not known. -/
structure PassFailure where
  kind : Kind
  pass : String := ""
  function : String := ""
  detail : String := ""
deriving DecidableEq

/-- The failure in words, without its cause. -/
def PassFailure.message (f : PassFailure) : String :=
  f.kind.name ++ (if f.pass = "" then "" else s!" [{f.pass}]") ++
    (if f.function = "" then "" else s!" in fn {f.function}") ++
    if f.detail = "" then "" else ": " ++ f.detail

/-- An error. -/
inductive Err where
  /-- A message. -/
  | plain (message : String)
  /-- A kind as an error of its own. -/
  | bare (kind : Kind)
  /-- A message about a place in a module. -/
  | located (function : String) (block : BlockId) (message : String)
  /-- A classified failure. -/
  | failed (failure : PassFailure)
  /-- A classified failure with the error that caused it. -/
  | failedBy (failure : PassFailure) (cause : Err)
  /-- An error reported in a text of its own, which stays as it is when more becomes known of the
  cause. -/
  | worded (text : String) (cause : Err)
  /-- Several errors. -/
  | joined (parts : List Err)

namespace Err

mutual

/-- The text of an error. -/
def message : Err → String
  | plain m => m
  | bare k => k.name
  | located f b m => locate f b m
  | failed f => f.message
  | failedBy f cause => f.message ++ ": " ++ cause.message
  | worded text _ => text
  | joined parts => "\n".intercalate (messages parts)

/-- The texts of several errors. -/
def messages : List Err → List String
  | [] => []
  | e :: rest => e.message :: messages rest

end

/-- An error with words in front of it. -/
def context (words : String) (cause : Err) : Err := worded (words ++ ": " ++ cause.message) cause

mutual

/-- The first classified failure in an error, with its cause. -/
def failure? : Err → Option (PassFailure × Option Err)
  | failed f => some (f, none)
  | failedBy f cause => some (f, some cause)
  | worded _ cause => cause.failure?
  | joined parts => firstFailure? parts
  | _ => none

/-- The first classified failure in some errors. -/
def firstFailure? : List Err → Option (PassFailure × Option Err)
  | [] => none
  | e :: rest => (e.failure?).orElse fun _ => firstFailure? rest

end

mutual

/-- Whether an error is of a kind: some part of it is that kind, or is a failure of that kind. -/
def isKind (k : Kind) : Err → Bool
  | bare k' => k' = k
  | failed f => f.kind = k
  | failedBy f cause => f.kind = k || cause.isKind k
  | worded _ cause => cause.isKind k
  | joined parts => anyIsKind k parts
  | _ => false

/-- Whether one of some errors is of a kind. -/
def anyIsKind (k : Kind) : List Err → Bool
  | [] => false
  | e :: rest => e.isKind k || anyIsKind k rest

end

mutual

/-- Names the pass in the first classified failure, if that names none yet. -/
def namePass (pass : String) : Err → Err
  | failed f => failed (if f.pass = "" then { f with pass } else f)
  | failedBy f cause => failedBy (if f.pass = "" then { f with pass } else f) cause
  | worded text cause => worded text (cause.namePass pass)
  | joined parts => joined (namePassFirst pass parts)
  | e => e

/-- Names the pass in the first classified failure of some errors. -/
def namePassFirst (pass : String) : List Err → List Err
  | [] => []
  | e :: rest =>
    if e.failure?.isSome then e.namePass pass :: rest else e :: namePassFirst pass rest

end

/-- The kind of the first classified failure. -/
def kind? (e : Err) : Option Kind := e.failure?.map fun f => f.1.kind

/-- A failure with a cause that may be missing. -/
def ofFailure (f : PassFailure) : Option Err → Err
  | some cause => failedBy f cause
  | none => failed f

/-- Words in front of an error that may be missing. -/
def withContext (words : String) : Option Err → Err
  | some cause => context words cause
  | none => plain (words ++ ": %!w(<nil>)")

/-- The errors that there are, joined; nothing if there are none. -/
def join? (parts : List (Option Err)) : Option Err :=
  match parts.reduceOption with
  | [] => none
  | present => some (joined present)

/-- Several errors as one; nothing if there are none. -/
def ofList? : List Err → Option Err
  | [] => none
  | parts => some (joined parts)

/-- Records the function a classified failure is about. -/
def setFunction (name : String) : Err → Err
  | failed f => failed { f with function := name }
  | failedBy f cause => failedBy { f with function := name } cause
  | e => e

/-- Records the function, unless the error names one already. -/
def inFunction (name : String) : Err → Err
  | failed f => failed (if f.function = "" then { f with function := name } else f)
  | failedBy f cause =>
    failedBy (if f.function = "" then { f with function := name } else f) cause
  | e => e

/-- Names the pass in an error: in its classified failure if it has one, else in front of it. -/
def annotate (pass : String) (e : Err) : Err :=
  if e.failure?.isSome then e.namePass pass else context s!"pass {pass}" e

/-- The parts of a joined error, or the error itself. -/
def parts : Err → List Err
  | joined parts => parts
  | e => [e]

end Err

/-- A defect as an error. -/
def Defect.toErr (d : Defect) : Err := .located d.function d.block d.flaw.message

/-- How a step can fail: with an error, or by doing what has no meaning. -/
inductive Failure where
  | error (e : Err)
  /-- Something that was needed is missing. -/
  | fault

end SsaOpt
