import Handheld.Text.Blank

/-!
# Log levels

A level is a rank; entries of a rank at or above a log's threshold are written. Nine ranks have a
name, any other is named by its digits.
-/

namespace Handheld

/-- The rank of a log entry, or the least rank that a log writes. -/
structure Level where
  /-- Greater ranks are more important. -/
  rank : Int
deriving DecidableEq, Repr

/-- Why a text names no level. -/
inductive LevelFault
  /-- Neither a name nor an integer. -/
  | unknown (text : String)
  /-- An integer outside of the ranks. -/
  | outOfBounds (rank : Int)
deriving DecidableEq, Repr

namespace LevelFault

/-- The wording of the fault. -/
def message : LevelFault → String
  | unknown text => s!"Unknown Level String: '{text}', defaulting to NoLevel"
  | outOfBounds rank => s!"Out-Of-Bounds Level: '{rank}', defaulting to NoLevel"

end LevelFault

namespace Level

/-- The finest level. -/
def trace : Level := ⟨-1⟩

/-- Entries for those who look for a mistake. -/
def debug : Level := ⟨0⟩

/-- Entries for everyone. -/
def info : Level := ⟨1⟩

/-- Failures. -/
def error : Level := ⟨3⟩

/-- The level of a log that was given none. -/
def unspecified : Level := ⟨6⟩

/-- A threshold that writes nothing. -/
def disabled : Level := ⟨7⟩

/-- The levels that have a name. -/
def names : List (String × Level) :=
  [("trace", trace), ("debug", debug), ("info", info), ("warn", ⟨2⟩), ("error", error),
    ("fatal", ⟨4⟩), ("panic", ⟨5⟩), ("disabled", disabled), ("", unspecified)]

/-- The name of a level, or its digits. -/
def name (l : Level) : String :=
  match names.find? (·.2 = l) with
  | some (n, _) => n
  | none => Int.repr l.rank

/-- The integer that a text writes with an optional sign, if it fits into 64 bits. -/
def integer? (text : String) : Option Int :=
  match text.toList with
  | '-' :: ds => (digits? ds).bind fun n => if n ≤ Nat.pow 2 63 then some (-n) else none
  | '+' :: ds => (digits? ds).bind positive?
  | ds => (digits? ds).bind positive?
where
  /-- The natural number that some digits write. -/
  digits? (ds : List Char) : Option Nat :=
    if !ds.isEmpty && ds.all (fun c => '0' ≤ c && c ≤ '9') then
      some (ds.foldl (fun n c => 10 * n + (c.toNat - '0'.toNat)) 0)
    else none
  /-- The number itself, if it fits into 63 bits. -/
  positive? (n : Nat) : Option Int := if n < Nat.pow 2 63 then some n else none

/-- The level that a text names, in any letter case, or gives as an integer. -/
def ofText (text : String) : Except LevelFault Level :=
  match names.find? (Text.equalLetters text ·.1) with
  | some (_, l) => .ok l
  | none =>
    match integer? text with
    | none => .error (.unknown text)
    | some r => if -128 ≤ r ∧ r ≤ 127 then .ok ⟨r⟩ else .error (.outOfBounds r)

/-- The threshold of a log that is set up with the given level: unspecified means `info`. -/
def threshold (text : String) : Except LevelFault Level := do
  let l ← ofText text
  return if l = unspecified then info else l

end Level

end Handheld
