import Handheld.Double.Exponential

/-!
# Powers of a double

The power of two doubles and the length of a hypotenuse. An exponent is split at the point: the whole
part is a product, squared bit by bit, and only the rest goes through the exponential.
-/

namespace Handheld.Double

/-- The length of the hypotenuse over legs `x` and `y`; an infinite leg gives an infinite length. -/
def hypot (x y : Float) : Float :=
  if x.isInf || y.isInf then infinity
  else if x.isNaN || y.isNaN then nan
  else
    let a := x.abs
    let b := y.abs
    let (p, q) := if a < b then (b, a) else (a, b)
    if p == 0 then 0
    else
      let r := q / p
      p * Float.sqrt (1 + r * r)

/-- Multiplies `a · 2^d` by `f · 2^k` raised to the `i`-th power, squaring bit by bit. -/
def powBits : Nat → Nat → Float → Int → Float → Int → Float × Int
  | 0, _, _, _, a, d => (a, d)
  | bits + 1, i, f, k, a, d =>
    if i = 0 then (a, d)
    else if k < -4096 ∨ 4096 < k then (a, d + k)
    else
      let (a, d) := if i % 2 = 1 then (a * f, d + k) else (a, d)
      let sq := f * f
      if sq < 0.5 then powBits bits (i / 2) (sq + sq) (2 * k - 1) a d
      else powBits bits (i / 2) sq (2 * k) a d

/-- The general case of `pow`: finite `x` and `y`, with `y` neither zero nor one half. -/
def powFinite (x y : Float) : Float :=
  let n := trunc y.abs
  let r := y.abs - n
  if r != 0 && x < 0 then nan
  else if 9223372036854775808.0 ≤ n then
    if x == -1 then 1
    else if (x.abs < 1) == (0 < y) then 0
    else infinity
  else
    let (n, r) := if 0.5 < r then (n + 1, r - 1) else (n, r)
    let a := if r != 0 then exp (r * log x) else 1
    let (f, k) := split x
    let (a, d) := powBits 64 (magnitude n) f k a 0
    if y < 0 then scale (1 / a) (-d) else scale a d

/-- The power `x^y` of a base that is not infinite, with the usual special cases. -/
def powCore (x y : Float) : Float :=
  if x == 0 then
    let odd := isIntegral y && magnitude y % 2 == 1 && !y.isInf
    if y < 0 then (if odd then copySign infinity x else infinity)
    else (if odd then x else 0)
  else if y.isInf then
    if x == -1 then 1
    else if (x.abs < 1) == !isNegative y then 0
    else infinity
  else if y == 0.5 then Float.sqrt x
  else if y == -0.5 then 1 / Float.sqrt x
  else powFinite x y

/-- The power `x^y`: undefined for a negative base with a fractional exponent. -/
def pow (x y : Float) : Float :=
  if y == 0 || x == 1 then 1
  else if y == 1 then x
  else if x.isNaN || y.isNaN then nan
  else if x.isInf && !y.isInf then
    if isNegative x then powCore (1 / x) (-y)
    else if y < 0 then 0
    else infinity
  else powCore x y

end Handheld.Double
