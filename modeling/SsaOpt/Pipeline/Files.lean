import SsaOpt.Disk.Basic
import SsaOpt.Interchange.Codec
import SsaOpt.Pipeline.Basic

/-!
# Modules in files

Reading modules from files, writing them, and running a pipeline from one file to another.
-/

namespace SsaOpt

variable {m : Type → Type} [Monad m] [Disk m]

/-- A failure to use a file as an error. -/
def FileError.toErr (e : FileError) : Err := .plain e.message

/-- Reads a module from a file. -/
def loadModule (path : String) : m (Except Err Module) := do
  match ← Disk.read path with
  | .error e => return .error (.context s!"cannot read {path}" e.toErr)
  | .ok bytes =>
    match Module.decode bytes with
    | .error e => return .error (.context s!"cannot decode {path}" (.plain e.message))
    | .ok mod => return .ok mod

/-- Writes a module to a file. -/
def saveModule (path : String) (mod : Listing) : m (Option Failure) := do
  match mod.encode with
  | .error .fault => return some .fault
  | .error (.error e) =>
    let name := Pipeline.moduleName (some mod)
    return some (.error (.context s!"cannot encode module {name}" e))
  | .ok bytes =>
    match ← Disk.write path bytes with
    | some e => return some (.error (.context s!"cannot write {path}" e.toErr))
    | none => return none

/-- Writes the text of a module to a file. Without a module or a file there is nothing to do. -/
def writeModuleText (path : String) (mod : Option Listing) : m (Option Err) := do
  match mod with
  | none => return none
  | some mod =>
    if path = "" then return none
    else return (← Disk.write path (Text.utf8Bytes mod.render)).map FileError.toErr

namespace Pipeline

/-- Finishes a successful run by writing the module to a file, if one is given. -/
def finish (done : PipelineRun) (output : String) : m PipelineRun := do
  match done.failure, done.module with
  | none, some mod =>
    if output = "" then return done
    else
      match ← saveModule output mod with
      | some failure =>
        return { done with
          failure := some failure, pipeline := done.pipeline.addFailure failure }
      | none => return { done with pipeline := { done.pipeline with phase := .written } }
  | _, _ => return done

/-- Runs over the module in a file and writes it to another, if one is given. -/
def runFile (p : Pipeline) (input output : String) : m PipelineRun := do
  match ← loadModule input with
  | .error e => return { failure := some (.error e), module := none, pipeline := p.addErr e }
  | .ok mod => finish (p.run (some (.ofModule mod))) output

end Pipeline

end SsaOpt
