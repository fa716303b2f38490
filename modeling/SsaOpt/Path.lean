/-!
# Paths

File names with slashes. `clean` gives the shortest name of the same place, going by the names
alone; the other operations return clean names.
-/

namespace SsaOpt.Path

/-- The parts of a path between slashes, without the empty ones. -/
def parts (path : String) : List String := (path.splitOn "/").filter fun p => p ≠ ""

/-- Whether a path starts at the root. -/
def isAbsolute (path : String) : Bool := path.startsWith "/"

/-- Takes a step along a path; the parts already taken are in `done`, the last first. Going up
cancels a part, stays at the root, or remains as a part. -/
def cleanStep (absolute : Bool) (done : List String) (part : String) : List String :=
  if part = "." then done
  else if part = ".." then
    match done with
    | [] => if absolute then [] else [".."]
    | last :: rest => if last = ".." then ".." :: done else rest
  else part :: done

/-- A path of parts. -/
def ofParts (absolute : Bool) (parts : List String) : String :=
  let path := "/".intercalate parts
  if absolute then "/" ++ path else if path = "" then "." else path

/-- The shortest name of a path. -/
def clean (path : String) : String :=
  let absolute := isAbsolute path
  ofParts absolute ((parts path).foldl (cleanStep absolute) []).reverse

/-- A path and one that starts where it leads to. -/
def join (a b : String) : String :=
  if a = "" && b = "" then ""
  else if a = "" then clean b
  else if b = "" then clean a
  else clean (a ++ "/" ++ b)

/-- The text up to the last slash and the text behind it. -/
def splitLast (path : String) : String × String :=
  let behind := path.toList.reverse.takeWhile (· ≠ '/')
  (String.ofList (path.toList.reverse.dropWhile (· ≠ '/')).reverse, String.ofList behind.reverse)

/-- The directory that a path leads into. -/
def directory (path : String) : String := clean (splitLast path).1

/-- The last part of a path. -/
def base (path : String) : String :=
  if path = "" then "."
  else
    let trimmed := String.ofList (path.toList.reverse.dropWhile (· = '/')).reverse
    if trimmed = "" then "/" else (splitLast trimmed).2

/-- The path from the root, seen from a current directory. -/
def absolute (current path : String) : String :=
  if isAbsolute path then clean path else join current path

end SsaOpt.Path
