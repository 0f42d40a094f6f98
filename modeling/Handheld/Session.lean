import Handheld.Calculator

/-!
# Sessions

A session reads lines from the calculator's console and runs each, printing the last result after a
line that succeeds and the fault after one that fails. It is over when the user leaves, when the
input is, or when something fails that is not part of the language.
-/

namespace Handheld.Session

/-- The word that ends a session, in any letter case. -/
def exitWord : String := "exit"

/-- Stands in front of the message of a fault. -/
def errorMark : String := "ERR: "

/-- What a session does after a line. -/
inductive Next
  /-- It reads the next line. -/
  | proceed
  /-- It is over, with a fault if there was one. -/
  | over (f : Option Fault)

/-- Prints a line; a failure ends the session. -/
def answer (c : Calculator) (line circumstances : String) : Next × Calculator :=
  match c.world.console.print line with
  | (none, k) => (.proceed, { c with world.console := k })
  | (some cause, k) =>
    (.over (some (.during circumstances (.external cause))), { c with world.console := k })

/-- Tells the user how a line came out. -/
def reply (line : String) : Except Fault (Option Value) → Calculator → Next × Calculator
  | .ok v, c => answer c (Value.textOf v) "session: printing result: "
  | .error f, c =>
    if f.reason = .unknown ∨ f.reason = .assertion then
      (.over (some f), c.record (.failed f.reason.code f.message))
    else answer (c.record (.refused f line)) (errorMark ++ f.message) "session: printing error: "

/-- Handles one line of input. -/
def handle (fuel : Nat) (c : Calculator) (line : String) : Option (Next × Calculator) :=
  let word := String.ofList (Text.trim line.toList)
  if Text.equalLetters word exitWord then some (.over none, c)
  else if word.isEmpty then some (.proceed, c)
  else (c.interpret fuel line).map fun (r, c) => reply line r c

/-- Reads and handles lines until the session is over; gives up after `fuel` lines, or `fuel`
statements of one. -/
def loop : Nat → Calculator → Option (Option Fault × Calculator)
  | 0, _ => none
  | fuel + 1, c =>
    match c.world.console.read with
    | (.error .closed, k) => some (none, { c with world.console := k })
    | (.error (.failed cause), k) =>
      let f : Fault := .during "session: reading input: " (.external cause)
      some (some f, { c with world.console := k })
    | (.ok line, k) =>
      match handle fuel { c with world.console := k } line with
      | none => none
      | some (.over f, c) => some (f, c)
      | some (.proceed, c) => loop fuel c

/-- Runs a session and says which fault ended it, if one did. -/
def run (fuel : Nat) (c : Calculator) : Option (Option Fault × Calculator) :=
  (loop fuel (c.record .sessionStarted)).map fun (f, c) => (f, c.record .sessionEnded)

end Handheld.Session
