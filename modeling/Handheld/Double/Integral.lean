import Handheld.Double.Basic

/-!
# Integral parts of doubles

Truncation, floor and rounding to the nearest integer are exact: they shift the mantissa of a finite
double. Zeros keep their sign, and infinities and undefined values are left alone.
-/

namespace Handheld.Double

open Float.Model (UnpackedFloat)

/-- Replaces the mantissa `m` of a double with `k > 0` binary places by the integer `f s m k`. -/
def integral (f : UnpackedFloat.Sign → Nat → Nat → Nat) (x : Float) : Float :=
  match x.toModel.unpack with
  | .finite s m e _ => if 0 ≤ e then x else signed s (f s m (-e).toNat)
  | _ => x

/-- The integer part, towards zero. -/
def trunc : Float → Float :=
  integral fun _ m k => m >>> k

/-- The greatest integer that is not greater. -/
def floor : Float → Float :=
  integral fun s m k =>
    match s with
    | .positive => m >>> k
    | .negative => (m + (Nat.pow 2 k - 1)) >>> k

/-- The nearest integer; a half goes away from zero. -/
def round : Float → Float :=
  integral fun _ m k => (m + Nat.pow 2 (k - 1)) >>> k

/-- A double that equals its integer part; infinities count, undefined values do not. -/
def isIntegral (x : Float) : Bool :=
  x == trunc x

/-- The integer part of the magnitude of a finite double, as a natural number. -/
def magnitude (x : Float) : Nat :=
  match x.toModel.unpack with
  | .finite _ m e _ => if 0 ≤ e then m <<< e.toNat else m >>> (-e).toNat
  | _ => 0

/-- A shifted mantissa, rounded to the nearest integer; a half goes to the even neighbour. -/
def shiftToEven (m k : Nat) : Nat :=
  let q := m >>> k
  let rest := 2 * (m % Nat.pow 2 k)
  if Nat.pow 2 k < rest ∨ (Nat.pow 2 k = rest ∧ q % 2 = 1) then q + 1 else q

/-- The integer nearest to a finite double; a half goes to the even neighbour. -/
def nearest (x : Float) : Int :=
  match x.toModel.unpack with
  | .finite s m e _ =>
    let n := if 0 ≤ e then m <<< e.toNat else shiftToEven m (-e).toNat
    match s with
    | .positive => n
    | .negative => -n
  | _ => 0

end Handheld.Double
