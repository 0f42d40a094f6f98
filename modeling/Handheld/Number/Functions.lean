import Handheld.Number.Basic

/-!
# Elementary functions of a complex number

Principal values of the root, exponential, logarithm, power, circular functions and their inverses.
Each function is given by its formula on the parts, with the limits at infinite and undefined parts
decided before the formula is used.
-/

namespace Handheld.Number

/-- A number that is undefined in both parts. -/
def undefined : Number := ⟨Double.nan, Double.nan⟩

/-- The root of a number whose parts are both nonzero, computed at a safe scale. -/
def scaledSqrt (z : Number) : Number :=
  let large := 4 < z.re.abs || 4 < z.im.abs
  let a := if large then z.re * 0.25 else z.re * 18014398509481984.0
  let b := if large then z.im * 0.25 else z.im * 18014398509481984.0
  let k : Float := if large then 2 else 7.450580596923828125e-9
  let r := Double.hypot a b
  let (t, r) :=
    if 0 < a then
      let t := Float.sqrt (0.5 * r + 0.5 * a)
      (t * k, k * ((0.5 * b) / t).abs)
    else
      let s := Float.sqrt (0.5 * r - 0.5 * a)
      (k * ((0.5 * b) / s).abs, s * k)
  if b < 0 then ⟨t, -r⟩ else ⟨t, r⟩

/-- The principal square root; a zero imaginary part passes its sign on. -/
def sqrt (z : Number) : Number :=
  if z.im == 0 then
    if z.re == 0 then ⟨0, z.im⟩
    else if z.re < 0 then ⟨0, Double.copySign (Float.sqrt (-z.re)) z.im⟩
    else ⟨Float.sqrt z.re, z.im⟩
  else if z.im.isInf then ⟨Double.infinity, z.im⟩
  else if z.re == 0 then
    if z.im < 0 then
      let r := Float.sqrt (-0.5 * z.im)
      ⟨r, -r⟩
    else
      let r := Float.sqrt (0.5 * z.im)
      ⟨r, r⟩
  else scaledSqrt z

/-- The natural logarithm. -/
def log (z : Number) : Number := ⟨Double.log z.modulus, z.phase⟩

/-- The decimal logarithm. -/
def log10 (z : Number) : Number :=
  z.log.mapParts (Float.ofBits 0x3FDBCB7B1526E50E * ·)

/-- The exponential. -/
def exp (z : Number) : Number :=
  if z.re.isInf && !Double.isNegative z.re && z.im == 0 then z
  else if z.re.isInf && (z.im.isInf || z.im.isNaN) then
    if z.re < 0 then ⟨0, Double.copySign 0 z.im⟩ else ⟨Double.infinity, Double.nan⟩
  else if z.re.isNaN && z.im == 0 then ⟨Double.nan, z.im⟩
  else
    let r := Double.exp z.re
    ⟨r * Double.cos z.im, r * Double.sin z.im⟩

/-- The power of a nonzero number. -/
def pow (z w : Number) : Number :=
  let arg := z.phase
  let r := Double.pow z.modulus w.re
  let t := w.re * arg
  let (r, t) :=
    if w.im != 0 then (r * Double.exp (-w.im * arg), t + w.im * Double.log z.modulus) else (r, t)
  ⟨r * Double.cos t, r * Double.sin t⟩

/-- Hyperbolic sine and cosine together, from one exponential beyond one half. -/
def sinhCosh (x : Float) : Float × Float :=
  if x.abs ≤ 0.5 then (Double.sinh x, Double.cosh x)
  else
    let e := Double.exp x
    let back := 0.5 / e
    let half := e * 0.5
    (half - back, half + back)

/-- Sine. -/
def sin (z : Number) : Number :=
  if z.im == 0 && !z.re.isFinite then ⟨Double.nan, z.im⟩
  else if z.im.isInf && z.re == 0 then z
  else if z.im.isInf && !z.re.isFinite then ⟨Double.nan, z.im⟩
  else if z.re == 0 && z.im.isNaN then z
  else
    let (sh, ch) := sinhCosh z.im
    ⟨Double.sin z.re * ch, Double.cos z.re * sh⟩

/-- Cosine. -/
def cos (z : Number) : Number :=
  if z.im == 0 && !z.re.isFinite then ⟨Double.nan, -z.im * Double.copySign 0 z.re⟩
  else if z.im.isInf && z.re == 0 then ⟨Double.infinity, -z.re * Double.copySign 0 z.im⟩
  else if z.im.isInf && !z.re.isFinite then ⟨Double.infinity, Double.nan⟩
  else if z.re == 0 && z.im.isNaN then ⟨Double.nan, 0⟩
  else
    let (sh, ch) := sinhCosh z.im
    ⟨Double.cos z.re * ch, -Double.sin z.re * sh⟩

/-- Adds terms of the series of `cosh b - cos a` to `d`, two at a time, until the second of them no
longer counts. `aa` and `bb` are the squares of `a` and `b`; `p`, `q` and `f` are the last powers and
the last factorial, that of `n`. The factorial overflows before `fuel` is used up. -/
def addTerms (aa bb : Float) : Nat → Float → Float → Float → Float → Float → Float
  | 0, _, _, _, _, d => d
  | fuel + 1, n, f, p, q, d =>
    let f := f * (n + 1) * (n + 2)
    let p := p * aa
    let q := q * bb
    let d := d + (q + p) / f
    let f := f * (n + 3) * (n + 4)
    let p := p * aa
    let q := q * bb
    let t := (q - p) / f
    let d := d + t
    if 1.1102230246251565e-16 < (t / d).abs then addTerms aa bb fuel (n + 4) f p q d else d

/-- `cosh 2y + cos 2x` by its series, for `2x` near an odd multiple of `π`. It is cut off after two
terms if the distance from the multiple equals `2y`. -/
def tanSeries (z : Number) : Float :=
  let a := Double.halfTurnRest (2 * z.re).abs
  let b := (2 * z.im).abs
  addTerms (a * a) (b * b) 64 0 1 1 1 0

/-- The sum `cos 2x + cosh 2y`, without cancellation where it is small. -/
def tanDenominator (z : Number) : Float :=
  let d := Double.cos (2 * z.re) + Double.cosh (2 * z.im)
  if d.abs < 0.25 then z.tanSeries else d

/-- Tangent. -/
def tan (z : Number) : Number :=
  if z.im.isInf then
    let side := if z.re.isFinite then Double.sin (2 * z.re) else z.re
    ⟨Double.copySign 0 side, Double.copySign 1 z.im⟩
  else if z.re == 0 && z.im.isNaN then z
  else
    let d := z.tanDenominator
    if d == 0 then ⟨Double.infinity, Double.infinity⟩
    else ⟨Double.sin (2 * z.re) / d, Double.sinh (2 * z.im) / d⟩

/-- Arcsine. -/
def asin (z : Number) : Number :=
  if z.im == 0 && z.re.abs ≤ 1 then ⟨Double.asin z.re, z.im⟩
  else if z.re == 0 && z.im.abs ≤ 1 then ⟨z.re, Double.asinh z.im⟩
  else if z.im.isNaN then
    if z.re == 0 then ⟨z.re, Double.nan⟩
    else if z.re.isInf then ⟨Double.nan, z.re⟩
    else undefined
  else if z.im.isInf then
    if z.re.isNaN then z
    else if z.re.isInf then ⟨Double.copySign Double.quarterPi z.re, z.im⟩
    else ⟨Double.copySign 0 z.re, z.im⟩
  else if z.re.isInf then ⟨Double.copySign Double.halfPi z.re, Double.copySign z.re z.im⟩
  else
    let p := z.mul z
    let root := sqrt ⟨1 - p.re, -p.im⟩
    let w := log (add ⟨-z.im, z.re⟩ root)
    ⟨w.im, -w.re⟩

/-- Arccosine, the complement of the arcsine. -/
def acos (z : Number) : Number :=
  let w := z.asin
  ⟨Double.halfPi - w.re, -w.im⟩

/-- Arctangent. -/
def atan (z : Number) : Number :=
  if z.im == 0 then ⟨Double.atan z.re, z.im⟩
  else if z.re == 0 && z.im.abs ≤ 1 then ⟨z.re, Double.atanh z.im⟩
  else if z.im.isInf || z.re.isInf then
    if z.re.isNaN then ⟨Double.nan, Double.copySign 0 z.im⟩
    else ⟨Double.copySign Double.halfPi z.re, Double.copySign 0 z.im⟩
  else if z.re.isNaN || z.im.isNaN then undefined
  else
    let xx := z.re * z.re
    let a := 1 - xx - z.im * z.im
    let below := z.im - 1
    let b := xx + below * below
    if a == 0 || b == 0 then undefined
    else
      let above := z.im + 1
      let c := (xx + above * above) / b
      ⟨Double.halfTurnRest (0.5 * Double.atan2 (2 * z.re) a), 0.25 * Double.log c⟩

end Handheld.Number
