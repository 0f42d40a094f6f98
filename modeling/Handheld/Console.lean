import Handheld.Text.Lines

/-!
# The console

Programs talk to a user through a device that answers requests for a line and takes lines to print;
both can fail. What the device does may depend on everything that it was asked to do before, so it can
be a user who reads what is printed. The console keeps this history and what was printed.
-/

namespace Handheld

/-- Why there is no line of input. -/
inductive ReadFault
  /-- There will be no more input. -/
  | closed
  /-- Reading failed. -/
  | failed (cause : String)
deriving DecidableEq, Repr

/-- Something that a device was asked to do. -/
inductive Exchange
  /-- To give a line. -/
  | request
  /-- To print a line. -/
  | offer (line : String)
deriving DecidableEq, Repr

namespace Exchange

/-- A line was asked for. -/
def isRequest : Exchange → Bool
  | request => true
  | offer _ => false

end Exchange

/-- How a device behaves, given what it was asked to do before, the latest first. -/
structure Device where
  /-- The answer to a request for a line. -/
  answer : List Exchange → Except ReadFault String
  /-- Why a line cannot be printed, if it cannot. -/
  refusal : List Exchange → String → Option String

/-- A device with its history. -/
structure Console where
  /-- How it behaves. -/
  device : Device
  /-- What it was asked to do so far, the latest first. -/
  past : List Exchange
  /-- The lines that were printed. -/
  printed : Array String

namespace Device

/-- A device that gives the lines of a script, then fails as told; it prints up to `limit` lines. -/
def scripted (lines : List String) (after : ReadFault) (limit : Option Nat) : Device :=
  let lines := lines.toArray
  { answer := fun past =>
      match lines[past.countP (·.isRequest)]? with
      | some line => .ok line
      | none => .error after
    refusal := fun past _ =>
      match limit with
      | some most => if most ≤ past.countP (!·.isRequest) then some "printer jammed" else none
      | none => none }

/-- The lines of a text, without the returns at their ends. -/
def linesOf (text : String) : List String :=
  (Text.cutLines text.toList).map fun line =>
    String.ofList (line.reverse.dropWhile (· == '\r')).reverse

/-- A device that reads a text line by line and prints everything. -/
def stream (text : String) : Device := scripted (linesOf text) .closed none

end Device

namespace Console

/-- A console that was not used yet. -/
def new (d : Device) : Console := ⟨d, [], #[]⟩

/-- The number of requests for a line so far. -/
def asked (c : Console) : Nat := c.past.countP (·.isRequest)

/-- Asks for a line. -/
def read (c : Console) : Except ReadFault String × Console :=
  (c.device.answer c.past, { c with past := .request :: c.past })

/-- Prints a line, or says why it cannot. -/
def print (c : Console) (line : String) : Option String × Console :=
  let past := .offer line :: c.past
  match c.device.refusal c.past line with
  | some cause => (some cause, { c with past := past })
  | none => (none, { c with past := past, printed := c.printed.push line })

end Console

end Handheld
