import SsaOpt.Error
import SsaOpt.Path

/-!
# Configurations

What can be set: the passes and their order, the parameters of the passes, and where and how much is
logged.
-/

namespace SsaOpt

/-- A configuration. -/
structure Config where
  passes : List String := []
  /-- Whether a change that a pass does not report is a failure. -/
  verifyModified : Bool := false
  sizeThreshold : Int := 0
  exceptionsEnabled : Bool := false
  /-- The limit of rounds of dead code elimination; `0` means no limit. -/
  maxIterations : Int := 0
  verbosity : Int := 0
  logFile : String := ""
  /-- The directory of the file that the configuration comes from, or empty. -/
  directory : String := ""
deriving DecidableEq

/-- What is wrong with a configuration. -/
inductive ConfigFlaw where
  | negative (setting : String) (value : Int)
  | repeated (pass : String)
deriving DecidableEq

/-- The flaw in words. -/
def ConfigFlaw.message : ConfigFlaw → String
  | negative setting value => s!"{setting} must not be negative, got {value}"
  | repeated pass => s!"pipeline.passes lists {Text.quote pass} twice"

namespace Config

/-- The passes that run when none are configured. -/
def defaultPasses : List String := ["inline", "constfold", "dce"]

/-- The size threshold when none is configured. -/
def defaultSizeThreshold : Int := 32

/-- The configuration without a file. -/
def default : Config where
  passes := defaultPasses
  sizeThreshold := defaultSizeThreshold

/-- Every name that has come before, as often as it comes again. -/
def repeats : List String → List String → List String
  | _, [] => []
  | seen, n :: rest => if seen.contains n then n :: repeats seen rest else repeats (n :: seen) rest

/-- All flaws of a configuration. -/
def flaws (c : Config) : List ConfigFlaw :=
  let check := fun (setting : String) (value : Int) =>
    if value < 0 then [ConfigFlaw.negative setting value] else []
  check "inline.size_threshold" c.sizeThreshold ++ check "dce.max_iterations" c.maxIterations ++
    check "log.verbosity" c.verbosity ++ (repeats [] c.passes).map .repeated

/-- The flaws of a configuration as an error. -/
def flawErr? (c : Config) : Option Err :=
  Err.ofList? (c.flaws.map fun flaw => .plain flaw.message)

/-- The log file, seen from the directory of the configuration; empty if there is none. -/
def resolvedLogFile (c : Config) : String :=
  if c.logFile = "" || Path.isAbsolute c.logFile || c.directory = "" then c.logFile
  else Path.join c.directory c.logFile

end Config

end SsaOpt
