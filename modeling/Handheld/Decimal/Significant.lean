/-!
# Decimals with a fixed number of significant digits

A positive fraction is written with at most `n` significant digits: the nearest such decimal, an
exact tie going to the even digit, without trailing zeros. All arithmetic is on natural numbers.
-/

namespace Handheld

/-- A positive decimal in scientific form: the first digit counts `10 ^ exponent`. -/
structure Scientific where
  /-- The significant digits, from the first nonzero one to the last nonzero one. -/
  digits : List Char
  /-- The decimal exponent of the first digit. -/
  exponent : Int
deriving DecidableEq, Repr

namespace Scientific

/-- The quotient rounded to the nearest integer; an exact half goes to the even neighbour. -/
def roundDiv (num den : Nat) : Nat :=
  let q := num / den
  let r := num % den
  if 2 * r < den then q
  else if den < 2 * r then q + 1
  else q + q % 2

/-- The number of decimal digits of `n`; zero has none. -/
def digitCount (n : Nat) : Nat :=
  if n = 0 then 0 else (Nat.toDigits 10 n).length

/-- The greatest `e` with `10 ^ e ≤ num / den`. -/
def leadingExponent (num den : Nat) : Int :=
  if den ≤ num then (digitCount (num / den) : Int) - 1
  else -(digitCount ((den - 1) / num) : Int)

/-- The digits of `d` without trailing zeros. -/
def trimmedDigits (d : Nat) : List Char :=
  ((Nat.toDigits 10 d).reverse.dropWhile (· == '0')).reverse

/-- The positive fraction `num / den` to `n > 0` significant digits. -/
def nearest (n num den : Nat) : Scientific :=
  let e := leadingExponent num den
  let shift := (n : Int) - 1 - e
  let d :=
    if 0 ≤ shift then roundDiv (num * Nat.pow 10 shift.toNat) den
    else roundDiv num (den * Nat.pow 10 (-shift).toNat)
  if d = Nat.pow 10 n then ⟨['1'], e + 1⟩ else ⟨trimmedDigits d, e⟩

end Scientific

end Handheld
