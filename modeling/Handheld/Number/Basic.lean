import Handheld.Double.Circular
import Handheld.Double.Power

/-!
# Numbers

A number is complex: a pair of doubles. This module has the four operations and the equality of
the calculator's language; the elementary functions stand in `Handheld.Number.Functions`.
-/

namespace Handheld

/-- A complex number; a real one has a zero imaginary part. -/
structure Number where
  /-- The real part. -/
  re : Float
  /-- The imaginary part. -/
  im : Float
deriving DecidableEq, Repr

namespace Number

/-- The real number `x`. -/
def ofReal (x : Float) : Number := ⟨x, 0⟩

/-- Zero, the value of every variable that was never stored. -/
def zero : Number := ofReal 0

/-- One, the value of a true comparison. -/
def one : Number := ofReal 1

/-- The imaginary unit. -/
def imaginaryUnit : Number := ⟨0, 1⟩

/-- The natural number `n`. -/
def ofNat (n : Nat) : Number := ofReal (Float.ofNat n)

/-- Truth as a number: one or zero. -/
def ofBool (b : Bool) : Number := if b then one else zero

/-- The language's equality: both parts are equal, so the sign of a zero does not matter and an
undefined part equals nothing. -/
def equals (a b : Number) : Bool :=
  a.re == b.re && a.im == b.im

/-- Equal to zero. -/
def isZero (z : Number) : Bool := z.equals zero

/-- The imaginary part is zero. -/
def isReal (z : Number) : Bool := z.im == 0

/-- Applies a function to each part. -/
def mapParts (f : Float → Float) (z : Number) : Number := ⟨f z.re, f z.im⟩

/-- Sum, part by part. -/
def add (a b : Number) : Number := ⟨a.re + b.re, a.im + b.im⟩

/-- Difference, part by part. -/
def sub (a b : Number) : Number := ⟨a.re - b.re, a.im - b.im⟩

/-- Product `(ac - bd) + (ad + bc)i`. -/
def mul (a b : Number) : Number :=
  ⟨a.re * b.re - a.im * b.im, a.re * b.im + a.im * b.re⟩

/-- The difference to zero, so that a zero part of a negation is positive. -/
def neg (z : Number) : Number := zero.sub z

/-- A signed one for an infinity and a signed zero for anything else. -/
def unitOfInfinity (x : Float) : Float :=
  Double.copySign (if x.isInf then 1 else 0) x

/-- The quotient by scaling with the larger part of the divisor. -/
def scaledDiv (n m : Number) : Number :=
  if m.im.abs ≤ m.re.abs then
    let r := m.im / m.re
    let q := m.re + r * m.im
    ⟨(n.re + n.im * r) / q, (n.im - n.re * r) / q⟩
  else
    let r := m.re / m.im
    let q := m.im + r * m.re
    ⟨(n.re * r + n.im) / q, (n.im * r - n.re) / q⟩

/-- The product of `n` with the conjugate of `m`, each part multiplied by `k`. -/
def timesConjugate (k : Float) (n m : Number) : Number :=
  ⟨k * (n.re * m.re + n.im * m.im), k * (n.im * m.re - n.re * m.im)⟩

/-- The quotient; where scaling leaves nothing defined, infinities and zeros are put right. -/
def div (n m : Number) : Number :=
  let z := scaledDiv n m
  if z.re.isNaN && z.im.isNaN then
    if m.isZero && (!n.re.isNaN || !n.im.isNaN) then
      n.mapParts (Double.copySign Double.infinity m.re * ·)
    else if (n.re.isInf || n.im.isInf) && m.re.isFinite && m.im.isFinite then
      timesConjugate Double.infinity (n.mapParts unitOfInfinity) m
    else if (m.re.isInf || m.im.isInf) && n.re.isFinite && n.im.isFinite then
      timesConjugate 0 n (m.mapParts unitOfInfinity)
    else z
  else z

/-- The modulus. -/
def modulus (z : Number) : Float := Double.hypot z.re z.im

/-- The angle to the positive real axis. -/
def phase (z : Number) : Float := Double.atan2 z.im z.re

/-- The conjugate: the imaginary part changes its sign. -/
def conj (z : Number) : Number := ⟨z.re, -z.im⟩

end Number

end Handheld
