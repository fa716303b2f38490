import SsaOpt.Config.Reader
import SsaOpt.Disk.Basic
import SsaOpt.Text.Utf8

/-!
# Configuration files

Loading a configuration from a file that is named, from a directory, or from the nearest directory
above that has one.
-/

namespace SsaOpt

/-- Why a configuration could not be loaded. -/
inductive LoadError where
  | unreadable (path : String) (e : FileError)
  | wrong (path : String) (e : ConfigError)
deriving DecidableEq

/-- The error in words. -/
def LoadError.message : LoadError → String
  | unreadable path e => s!"cannot read {path}: {e.message}"
  | wrong path e => s!"parse error in {path}: {e.message}"

namespace Config

variable {m : Type → Type} [Monad m] [Disk m]

/-- The name of configuration files. -/
def fileName : String := "seoggi.toml"

/-- The configuration in a file, with its directory. -/
def loadPath (path directory : String) : m (Except LoadError Config) := do
  match ← Disk.read path with
  | .error e => return .error (.unreadable path e)
  | .ok bytes =>
    match ((Text.utf8Text? bytes).map parse).getD (.error .malformed) with
    | .error e => return .error (.wrong path e)
    | .ok c => return .ok { c with directory := Path.absolute (← Disk.current) directory }

/-- The configuration of a directory. -/
def load (directory : String) : m (Except LoadError Config) :=
  loadPath (Path.join directory fileName) directory

/-- The configuration in a file of any name. -/
def loadFile (path : String) : m (Except LoadError Config) :=
  if Path.base path = fileName then load (Path.directory path)
  else loadPath path (Path.directory path)

/-- A directory and all above it, the nearest first. A path has no more of them than characters. -/
def ancestors : Nat → String → List String
  | 0, _ => []
  | fuel + 1, directory =>
    let parent := Path.directory directory
    directory :: if parent = directory then [] else ancestors fuel parent

/-- The configuration of the first of some directories that has one. -/
def loadFirst : List String → m (Except LoadError Config)
  | [] => return .ok default
  | directory :: rest => do
    if ← Disk.leadsSomewhere (Path.join directory fileName) then load directory
    else loadFirst rest

/-- The configuration of the nearest directory that has one. -/
def findAndLoad (start : String) : m (Except LoadError Config) := do
  let directory := Path.absolute (← Disk.current) start
  loadFirst (ancestors (directory.length + 1) directory)

end Config

end SsaOpt
