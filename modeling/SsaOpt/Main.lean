import SsaOpt.Command

/-!
# The program

The command line on real files.
-/

namespace SsaOpt

/-- A failure of the system as trouble with a file. -/
def troubleOf : IO.Error → FileTrouble
  | .noFileOrDirectory .. => .missing
  | .inappropriateType _ 20 _ => .notDirectory
  | .inappropriateType _ 21 _ => .isDirectory
  | e => .other (toString e)

instance : Disk IO where
  read path := do
    try
      return .ok (← IO.FS.readBinFile path).data.toList
    catch e =>
      let trouble := troubleOf e
      return .error ⟨if trouble = .isDirectory then "read" else "open", path, trouble⟩
  write path bytes := do
    try
      IO.FS.writeBinFile path ⟨bytes.toArray⟩
      return none
    catch e =>
      return some ⟨"open", path, troubleOf e⟩
  leadsSomewhere path := do
    try
      let _ ← IO.FS.realPath path
      return true
    catch _ =>
      return false
  current := return (← IO.currentDir).toString

/-- Some random hexadecimal digits. -/
def randomDigits (count : Nat) : IO String := do
  let n ← IO.rand 0 (Nat.pow 16 count - 1)
  return String.ofList (Text.hexDigits count n)

/-- A name for a run that no other run has. -/
def newRunName : IO String := do
  let parts ← [8, 4, 4, 4, 12].mapM randomDigits
  return "-".intercalate parts

end SsaOpt

/-- Runs the command that the arguments name. -/
def main (args : List String) : IO UInt32 := do
  let around : SsaOpt.Command.Surroundings :=
    { runName := ← SsaOpt.newRunName, time := fun _ => "0s" }
  let result ← (SsaOpt.Command.execute around args : IO SsaOpt.Command.Result)
  IO.print result.output
  IO.eprint result.errors
  return UInt32.ofNat result.code
