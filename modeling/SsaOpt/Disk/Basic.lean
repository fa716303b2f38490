/-!
# Disks

What the optimizer asks of a file system. Programs are written against the class `Disk`, so that
they run on real files as well as on the file trees of `SsaOpt.Disk.Tree`.
-/

namespace SsaOpt

/-- Why a file could not be used. -/
inductive FileTrouble where
  | missing
  | notDirectory
  | isDirectory
  /-- Something else, in the words of the system. -/
  | other (words : String)
deriving DecidableEq

/-- The trouble in words. -/
def FileTrouble.message : FileTrouble → String
  | missing => "no such file or directory"
  | notDirectory => "not a directory"
  | isDirectory => "is a directory"
  | other words => words

/-- A failure to use a file: what was tried, with which path, and why it failed. -/
structure FileError where
  action : String
  path : String
  trouble : FileTrouble
deriving DecidableEq

/-- The failure in words. -/
def FileError.message (e : FileError) : String := s!"{e.action} {e.path}: {e.trouble.message}"

/-- A file system. -/
class Disk (m : Type → Type) where
  /-- The bytes of a file. -/
  read : String → m (Except FileError (List UInt8))
  /-- Makes a file hold some bytes. -/
  write : String → List UInt8 → m (Option FileError)
  /-- Whether a path leads to a file or directory. -/
  leadsSomewhere : String → m Bool
  /-- The directory that relative paths start from. -/
  current : m String

end SsaOpt
