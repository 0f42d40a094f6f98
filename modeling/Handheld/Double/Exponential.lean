import Handheld.Double.Integral

/-!
# Exponential and logarithm of a double

The exponential, the logarithms and the hyperbolic functions, built from the four operations and the
square root alone. An argument is reduced to a short interval, where a polynomial or a quotient of
two gives the value to about the last digit. The limits of the reductions are visible: the
exponential overflows a little early, and the logarithm knows no subnormal fractions.
-/

namespace Handheld.Double

/-- The double nearest to 1 / ln 2. -/
def log2E : Float := 1.4426950408889634

/-- The double nearest to 1 / ln 10. -/
def log10E : Float := 0.4342944819032518

/-- Beyond this every exponential overflows. -/
def maxExponent : Float := 709.782712893384

/-- `(e^x - 1) / x` near zero, by its series. -/
def expRatio : Float → Float :=
  polynomial
    [2.4801587301587301587e-5, 1.9841269841269841270e-4, 1.3888888888888888889e-3,
      8.3333333333333333333e-3, 4.1666666666666666667e-2, 1.6666666666666666667e-1, 0.5, 1]

/-- From `a - 1` to `a ^ 2 - 1`. -/
def squareAboveOne (x : Float) : Float := x * (x + 2)

/-- The exponential of a double of at most `ln 2 / 2` in size: that of a sixteenth of it, squared four
times. -/
def expReduced (r : Float) : Float :=
  let x := r * 0.0625
  squareAboveOne (squareAboveOne (squareAboveOne (squareAboveOne (x * expRatio x)))) + 1

/-- The exponential. With `n` the integer nearest to `x / ln 2`, it is `2 ^ n` times that of the rest,
where `ln 2` is taken off in two parts. Already `n = 1024` counts as an overflow. -/
def exp (x : Float) : Float :=
  if x.isNaN then x
  else if maxExponent < x then infinity
  else if x < -1000 then 0
  else
    let n := nearest (x * log2E)
    if 1024 ≤ n then infinity
    else if n < -1075 then 0
    else
      let k := Float.ofInt n
      let r := (x - k * 0.69314718055966295651160180568695068359375) -
        k * 0.28235290563031577122588448175013436025525412068e-12
      scale (expReduced r) n

/-- The first part of ln 2. -/
def ln2High : Float := 6.93147180369123816490e-01

/-- What is missing to ln 2 after its first part. -/
def ln2Low : Float := 1.90821492927058770002e-10

/-- With `s = f / (2 + f)`, `ln (1 + f)` is `2 s + s r`, where `r` is a polynomial in `s²` without
constant term. These are its even powers of `s²`, as a polynomial in `s⁴` without the factor `s⁴`. -/
def logEven : Float → Float :=
  polynomial [1.531383769920937332e-01, 2.222219843214978396e-01, 3.999999999940941908e-01]

/-- The odd powers that go with `logEven`, without the factor `s²`. -/
def logOdd : Float → Float :=
  polynomial
    [1.479819860511658591e-01, 1.818357216161805012e-01, 2.857142874366239149e-01,
      6.666666666666735130e-01]

/-- `ln (2 ^ k · (1 + f))` for `1 + f` between `√2 / 2` and `√2`. -/
def logReduced (k f : Float) : Float :=
  let s := f / (2 + f)
  let s2 := s * s
  let s4 := s2 * s2
  let r := s2 * logOdd s4 + s4 * logEven s4
  let half := 0.5 * f * f
  k * ln2High - ((half - (s * (half + r) + k * ln2Low)) - f)

/-- The natural logarithm. Exponent and fraction are taken from their fields, the fraction always with
its leading one. So a subnormal double has the logarithm of `1 + f` times half the least normal
double, where `f` is what its fraction field says. -/
def log (x : Float) : Float :=
  if x.isNaN then x
  else if x == 0 then -infinity
  else if x < 0 then nan
  else if x.isInf then x
  else
    let k := Float.ofInt (exponentField x - 1022)
    let f := Float.ofBits (fractionField x ||| 0x3FE0000000000000)
    if 7.07106781186547524401e-01 < f then logReduced k (f - 1) else logReduced (k - 1) (f * 2 - 1)

/-- The decimal logarithm. -/
def log10 (x : Float) : Float :=
  log x * log10E

/-- `ln (1 + x)` for `x` from `√2 / 2 - 1` to `√2 - 1`. -/
def logNearOne (x : Float) : Float :=
  if x.abs < 1.862645149230957e-09 then
    if x.abs < 5.551115123125783e-17 then x else x - x * x * 0.5
  else
    let s := x / (2 + x)
    let s2 := s * s
    let r := s2 * polynomial
      [1.479819860511658591e-01, 1.531383769920937332e-01, 1.818357216161805012e-01,
        2.222219843214978396e-01, 2.857142874366239149e-01, 3.999999999940941908e-01,
        6.666666666666735130e-01] s2
    let half := 0.5 * x * x
    x - (half - s * (half + r))

/-- `ln (1 + x)` for a nonnegative `x`, without loss for a small one: the rounding error of `1 + x` is
made good. -/
def log1p (x : Float) : Float :=
  if x < 4.142135623730950488017e-01 then logNearOne x
  else if x.isInf then x
  else
    let u := 1 + x
    let c := if 2 ≤ u then 1 - (u - x) else x - (u - 1)
    log u + c / u

/-- Hyperbolic sine: by exponentials beyond one half, by a quotient of polynomials below. -/
def sinh (x : Float) : Float :=
  let a := x.abs
  let r :=
    if 21 < a then exp a * 0.5
    else if 0.5 < a then
      let t := exp a
      (t - 1 / t) * 0.5
    else
      let sq := a * a
      polynomial
          [-0.2630563213397497062819489e+2, -0.2894211355989563807284660366e+4,
            -0.8991272022039509355398013511e+5, -0.6307673640497716991184787251e+6] sq * a /
        polynomial
          [1, -0.173678953558233699533450911e+3, 0.1521517378790019070696485176e+5,
            -0.6307673640497716991212077277e+6] sq
  if x < 0 then -r else r

/-- Hyperbolic cosine, as half the sum of exponentials. -/
def cosh (x : Float) : Float :=
  let a := x.abs
  if 21 < a then exp a * 0.5
  else
    let t := exp a
    (t + 1 / t) * 0.5

/-- Inverse hyperbolic sine. -/
def asinh (x : Float) : Float :=
  if x.isNaN || x.isInf then x
  else
    let a := x.abs
    let r :=
      if 268435456 < a then log a + 6.93147180559945286227e-01
      else if 2 < a then log (2 * a + 1 / (Float.sqrt (a * a + 1) + a))
      else if a < 3.725290298461914e-09 then a
      else log1p (a + a * a / (1 + Float.sqrt (1 + a * a)))
    copySign r x

/-- Inverse hyperbolic tangent; infinite at the ends of `[-1, 1]` and undefined outside. -/
def atanh (x : Float) : Float :=
  let a := x.abs
  if a == 1 then copySign infinity x
  else if a < 1 then
    let r :=
      if a < 3.725290298461914e-09 then a
      else if a < 0.5 then
        let t := a + a
        0.5 * log1p (t + t * a / (1 - a))
      else 0.5 * log1p ((a + a) / (1 - a))
    copySign r x
  else nan

end Handheld.Double
