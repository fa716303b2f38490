import SsaOpt.Disk.Basic
import SsaOpt.Path

/-!
# File trees

Files and directories in memory, as a disk. A place is the list of names that lead to it from the
root.
-/

namespace SsaOpt

/-- What stands at a place. -/
inductive Entry where
  | file (bytes : List UInt8)
  | directory
deriving DecidableEq

/-- A tree of files; the root is always a directory. -/
structure FileTree where
  /-- The directory that relative paths start from. -/
  current : List String := []
  entries : List (List String × Entry) := []
deriving DecidableEq

namespace FileTree

/-- What stands at a place. -/
def entry? (t : FileTree) (place : List String) : Option Entry :=
  if place = [] then some .directory else t.entries.lookup place

/-- Puts an entry at a place. -/
def put (t : FileTree) (place : List String) (entry : Entry) : FileTree :=
  { t with entries := (place, entry) :: t.entries.filter fun e => e.1 ≠ place }

/-- Makes all directories on the way to a place. -/
def makeDirectories (t : FileTree) (place : List String) : FileTree :=
  (List.range place.length).foldl
    (fun t n =>
      let upper := place.take (n + 1)
      if (t.entry? upper).isSome then t else t.put upper .directory) t

/-- Puts a file at a place, with the directories on the way. -/
def addFile (t : FileTree) (place : List String) (bytes : List UInt8) : FileTree :=
  (t.makeDirectories place.dropLast).put place (.file bytes)

/-- Takes a step from a place, which must be a directory. -/
def step (t : FileTree) (place : List String) (name : String) : Except FileTrouble (List String) :=
  match t.entry? place with
  | none => .error .missing
  | some (.file _) => .error .notDirectory
  | some .directory =>
    if name = "." || name = "" then .ok place
    else if name = ".." then .ok place.dropLast
    else .ok (place ++ [name])

/-- The place that a path leads to. All but the last name on the way must be directories, and so
must be the last if a slash follows it. -/
def locate (t : FileTree) (path : String) : Except FileTrouble (List String) :=
  if path = "" then .error .missing
  else
    let start := if Path.isAbsolute path then [] else t.current
    (path.splitOn "/").foldlM t.step start

/-- The bytes of a file. -/
def read (t : FileTree) (path : String) : Except FileError (List UInt8) :=
  match t.locate path with
  | .error trouble => .error ⟨"open", path, trouble⟩
  | .ok place =>
    match t.entry? place with
    | none => .error ⟨"open", path, .missing⟩
    | some .directory => .error ⟨"read", path, .isDirectory⟩
    | some (.file bytes) => .ok bytes

/-- A path without the slashes at its end, apart from the root. -/
def withoutSlashes (path : String) : String :=
  let trimmed := String.ofList (path.toList.reverse.dropWhile (· = '/')).reverse
  if trimmed = "" && path ≠ "" then "/" else trimmed

/-- Makes a file hold some bytes. Its directory must exist, and the path must not be that of a
directory. -/
def write (t : FileTree) (path : String) (bytes : List UInt8) : Option FileError × FileTree :=
  let trimmed := withoutSlashes path
  match t.locate trimmed with
  | .error trouble => (some ⟨"open", path, trouble⟩, t)
  | .ok place =>
    if trimmed ≠ path || t.entry? place = some .directory then
      (some ⟨"open", path, .isDirectory⟩, t)
    else (none, t.put place (.file bytes))

/-- Whether a path leads to a file or directory. -/
def leadsSomewhere (t : FileTree) (path : String) : Bool :=
  match t.locate path with
  | .ok place => (t.entry? place).isSome
  | .error _ => false

end FileTree

instance : Disk (StateM FileTree) where
  read path t := (t.read path, t)
  write path bytes t := t.write path bytes
  leadsSomewhere path t := (t.leadsSomewhere path, t)
  current t := ("/" ++ "/".intercalate t.current, t)

end SsaOpt
