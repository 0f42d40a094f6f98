import Handheld.Double.Angle

/-!
# Circular functions of a double

Sine, cosine and tangent reduce the angle to a quadrant and use polynomials there; the arctangent
reduces its argument below `0.66`, and the other inverse functions go through it.
-/

namespace Handheld.Double

/-- The sine of an angle between `-π/4` and `π/4`. -/
def sinReduced (z : Float) : Float :=
  let zz := z * z
  z + z * zz * polynomial
    [1.58962301576546568060e-10, -2.50507477628578072866e-8, 2.75573136213857245213e-6,
      -1.98412698295895385996e-4, 8.33333333332211858878e-3, -1.66666666666666307295e-1] zz

/-- The cosine of an angle between `-π/4` and `π/4`. -/
def cosReduced (z : Float) : Float :=
  let zz := z * z
  1 - 0.5 * zz + zz * zz * polynomial
    [-1.13585365213876817300e-11, 2.08757008419747316778e-9, -2.75573141792967388112e-7,
      2.48015872888517045348e-5, -1.38888888888730564116e-3, 4.16666666666665929218e-2] zz

/-- The tangent of an angle between `-π/4` and `π/4`. -/
def tanReduced (z : Float) : Float :=
  let zz := z * z
  if 1e-14 < zz then
    let p := polynomial
      [-1.30936939181383734205e4, 1.15351664838587416140e6, -1.79565251976484877988e7] zz
    let q := polynomial
      [1, 1.36812963470692954678e4, -1.32089234440210967447e6, 2.50083801823357915839e7,
        -5.38695755929454629881e7] zz
    z + z * (zz * p / q)
  else z

/-- Sine; undefined at infinities. -/
def sin (x : Float) : Float :=
  if x == 0 || x.isNaN then x
  else if x.isInf then nan
  else
    let (q, z) := quadrant x.abs
    let y := if q % 2 = 1 then cosReduced z else sinReduced z
    if (2 ≤ q) == (x < 0) then y else -y

/-- Cosine; undefined at infinities. -/
def cos (x : Float) : Float :=
  if x.isNaN || x.isInf then nan
  else
    let (q, z) := quadrant x.abs
    let y := if q % 2 = 1 then sinReduced z else cosReduced z
    if q = 1 ∨ q = 2 then -y else y

/-- Tangent; undefined at infinities. -/
def tan (x : Float) : Float :=
  if x == 0 || x.isNaN then x
  else if x.isInf then nan
  else
    let (q, z) := quadrant x.abs
    let y := if q % 2 = 1 then -1 / tanReduced z else tanReduced z
    if x < 0 then -y else y

/-- The arctangent of a double of at most `0.66`. -/
def atanReduced (x : Float) : Float :=
  let z := x * x
  let p := polynomial
    [-8.750608600031904122785e-01, -1.615753718733365076637e+01, -7.500855792314704667340e+01,
      -1.228866684490136173410e+02, -6.485021904942025371773e+01] z
  let q := polynomial
    [1, 2.485846490142306297962e+01, 1.650270098316988542046e+02, 4.328810604912902668951e+02,
      4.853903996359136964868e+02, 1.945506571482613964425e+02] z
  x * (z * p / q) + x

/-- What `π / 2` exceeds `halfPi` by. -/
def halfPiRest : Float := 6.123233995736765886130e-17

/-- The arctangent of a nonnegative double. -/
def atanPositive (x : Float) : Float :=
  if x ≤ 0.66 then atanReduced x
  else if 2.41421356237309504880 < x then halfPi - atanReduced (1 / x) + halfPiRest
  else quarterPi + atanReduced ((x - 1) / (x + 1)) + 0.5 * halfPiRest

/-- Arctangent. -/
def atan (x : Float) : Float :=
  if x == 0 then x
  else if 0 < x then atanPositive x
  else -atanPositive (-x)

/-- The angle of the point `(x, y)`, in `[-π, π]`; on an axis the sign of `y` tells the side. -/
def atan2 (y x : Float) : Float :=
  if y.isNaN || x.isNaN then nan
  else if y == 0 then
    if isNegative x then copySign pi y else copySign 0 y
  else if x == 0 then copySign halfPi y
  else if x.isInf then
    match isNegative x, y.isInf with
    | false, true => copySign quarterPi y
    | false, false => copySign 0 y
    | true, true => copySign threeQuarterPi y
    | true, false => copySign pi y
  else if y.isInf then copySign halfPi y
  else
    let q := atan (y / x)
    if x < 0 then
      if q ≤ 0 then q + pi else q - pi
    else q

/-- Arcsine; undefined outside `[-1, 1]`. -/
def asin (x : Float) : Float :=
  if x == 0 then x
  else
    let a := x.abs
    if a ≤ 1 then
      let c := Float.sqrt (1 - a * a)
      let r := if 0.7 < a then halfPi - atanPositive (c / a) else atanPositive (a / c)
      if x < 0 then -r else r
    else nan

/-- Arccosine; undefined outside `[-1, 1]`. -/
def acos (x : Float) : Float :=
  halfPi - asin x

end Handheld.Double
