import Handheld.CommandLine.Run

/-!
# The program

Runs the command line on the files of the disk. Input is read only if the run asks for it.
-/

namespace Handheld

/-- Reads a file of the disk. -/
def readFromDisk (path : String) : IO (Except FileFault String) := do
  try
    return .ok (← IO.FS.readFile path)
  catch e =>
    return .error <|
      match e with
      | .noFileOrDirectory _ _ _ => .missing path
      | .inappropriateType _ _ _ => .folder path
      | _ => .other path e.toString

/-- The files of the disk. -/
def disk : IO (Files IO) := do
  let home ← IO.getEnv "HOME"
  return ⟨(← IO.currentDir).toString, home.getD "", readFromDisk⟩

/-- More statements than any run finishes. -/
def endless : Nat := Nat.pow 2 62

end Handheld

open Handheld in
/-- Prints what the command line gives and exits with its status. -/
def main (words : List String) : IO UInt32 := do
  let files ← disk
  let first ← CommandLine.run files "" endless words
  let final ←
    match first with
    | some r =>
      if r.asked = 0 then pure first
      else CommandLine.run files (← (← IO.getStdin).readToEnd) endless words
    | none => pure none
  match final with
  | some r =>
    IO.print r.output
    return r.status.toUInt32
  | none => return Reason.system.code.toUInt32
