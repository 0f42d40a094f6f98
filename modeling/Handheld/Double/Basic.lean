/-!
# Doubles

The parts of a calculator's numbers are IEEE doubles. This module holds the constants, the sign
operations and the exact splitting of a double into a fraction and a power of two, all in terms of
the bit-level model of `Float`, so that every definition computes inside the logic.
-/

namespace Handheld.Double

open Float.Model (UnpackedFloat Format totalExponent)

/-- Positive infinity. -/
def infinity : Float := Float.ofBits 0x7FF0000000000000

/-- The value of an undefined operation. -/
def nan : Float := Float.ofBits 0x7FF8000000000000

/-- The double nearest to π. -/
def pi : Float := Float.ofBits 0x400921FB54442D18

/-- The double nearest to π/2. -/
def halfPi : Float := Float.ofBits 0x3FF921FB54442D18

/-- The double nearest to π/4. -/
def quarterPi : Float := Float.ofBits 0x3FE921FB54442D18

/-- The double nearest to 3π/4. -/
def threeQuarterPi : Float := Float.ofBits 0x4002D97C7F3321D2

/-- The double nearest to Euler's number. -/
def euler : Float := Float.ofBits 0x4005BF0A8B145769

/-- The sign bit is set; negative zero counts as negative. -/
def isNegative (x : Float) : Bool :=
  x.toBits >>> 63 == 1

/-- The magnitude of `x` with the sign of `y`. -/
def copySign (x y : Float) : Float :=
  if isNegative y then -x.abs else x.abs

/-- Gives a natural magnitude the sign of a double, so that a zero keeps its sign. -/
def signed (s : UnpackedFloat.Sign) (n : Nat) : Float :=
  match s with
  | .positive => Float.ofNat n
  | .negative => -Float.ofNat n

/-- The double `x · 2^k`, rounded once. -/
def scale (x : Float) (k : Int) : Float :=
  match x.toModel.unpack with
  | .finite s m e _ => .ofModel (.pack (UnpackedFloat.round Format.binary64 s m (e + k)))
  | _ => x

/-- The polynomial with the given coefficients, that of the highest power first. -/
def polynomial : List Float → Float → Float
  | [], _ => 0
  | c :: cs, x => cs.foldl (fun sum c => sum * x + c) c

/-- The eleven bits of the exponent. -/
def exponentField (x : Float) : Nat :=
  (x.toBits >>> 52 &&& 0x7FF).toNat

/-- The fifty-two bits of the fraction. -/
def fractionField (x : Float) : UInt64 :=
  x.toBits &&& 0xFFFFFFFFFFFFF

/-- Splits a finite nonzero `x` as `f · 2^k` with `1/2 ≤ |f| < 1`; other doubles come with
`k = 0`. -/
def split (x : Float) : Float × Int :=
  match x.toModel.unpack with
  | .finite _ m e _ =>
    let k := totalExponent m e
    (scale x (-k), k)
  | _ => (x, 0)

end Handheld.Double
