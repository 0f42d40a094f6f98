import Handheld.Decimal.Significant
import Handheld.Double.Basic
import Handheld.Name

/-!
# Numerals

A numeral is a run of digits with at most one point in it, and an optional exponent after the mark
`ᴇ`. Its value is the nearest double; a numeral beyond the doubles has none.
-/

namespace Handheld

/-- The double nearest to `coefficient · 10 ^ exponent`, infinite beyond the largest. -/
def nearestDouble (coefficient : Nat) (exponent : Int) : Float :=
  let lead := (Scientific.digitCount coefficient : Int) + exponent
  if coefficient = 0 ∨ lead < -400 then 0
  else if 400 < lead then Double.infinity
  else if exponent < 0 then Float.ofScientific coefficient true (-exponent).toNat
  else Float.ofScientific coefficient false exponent.toNat

/-- The natural number written by decimal digits. -/
def natOfDigits (ds : List Char) : Nat :=
  ds.foldl (fun n c => 10 * n + (c.toNat - '0'.toNat)) 0

/-- A number as it is written. -/
structure Numeral where
  /-- Digits with at most one point. -/
  mantissa : List Char
  /-- What follows the mantissa: the exponent mark, a sign and digits; or nothing. -/
  exponent : Option (Option Char × List Char)
deriving DecidableEq, Repr

namespace Numeral

/-- The mark of the exponent. -/
def exponentMark : Char := 'ᴇ'

/-- The signs of a negative exponent. -/
def isMinus (c : Char) : Bool := c == '‾' || c == '⁻' || c == '-'

/-- The longest run of digits with at most one point; `pointed` if a point was already seen. -/
def scanMantissa (pointed : Bool) : List Char → List Char
  | [] => []
  | c :: cs =>
    if Name.isDigit c then c :: scanMantissa pointed cs
    else if c == '.' && !pointed then c :: scanMantissa true cs
    else []

/-- The exponent at the start of a text, if its mark is there. -/
def scanExponent : List Char → Option (Option Char × List Char)
  | [] => none
  | c :: cs =>
    if c == exponentMark then
      match cs with
      | [] => some (none, [])
      | s :: ds =>
        if isMinus s then some (some s, ds.takeWhile Name.isDigit)
        else some (none, cs.takeWhile Name.isDigit)
    else none

/-- The longest numeral at the start of a text. -/
def scan (cs : List Char) : Numeral :=
  let m := scanMantissa false cs
  ⟨m, scanExponent (cs.drop m.length)⟩

/-- The characters of a numeral. -/
def chars (n : Numeral) : List Char :=
  n.mantissa ++
    match n.exponent with
    | none => []
    | some (sign, ds) => exponentMark :: (sign.toList ++ ds)

/-- The exponent mark has digits after it, if it is there. -/
def wellFormed (n : Numeral) : Bool :=
  match n.exponent with
  | none => true
  | some (_, ds) => !ds.isEmpty

/-- The size of a written exponent. Once it has reached 10000, which no double needs, further digits
are passed over. -/
def exponentSize (ds : List Char) : Nat :=
  ds.foldl (fun n c => if n < 10000 then 10 * n + (c.toNat - '0'.toNat) else n) 0

/-- The written exponent. -/
def writtenExponent (n : Numeral) : Int :=
  match n.exponent with
  | none => 0
  | some (none, ds) => exponentSize ds
  | some (some _, ds) => -exponentSize ds

/-- The value; none if it is beyond the largest double. -/
def value? (n : Numeral) : Option Float :=
  let places := (n.mantissa.dropWhile (· != '.')).length - 1
  let x := nearestDouble (natOfDigits (n.mantissa.filter (· != '.'))) (n.writtenExponent - places)
  if x.isInf then none else some x

end Numeral

end Handheld
