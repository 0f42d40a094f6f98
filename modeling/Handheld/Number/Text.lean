import Handheld.Decimal.Significant
import Handheld.Number.Basic

/-!
# The text of a number

The home screen shows a real number with ten significant digits, in exponent form when the decimal
exponent is below `-4` or at least `10`. The exponent mark is `ᴇ`.
-/

namespace Handheld.Number

/-- The significant digits that the home screen shows. -/
def shownDigits : Nat := 10

/-- The least decimal exponent that is written positionally. -/
def leastPositional : Int := -4

/-- The text of a positive decimal. -/
def decimalText (s : Scientific) : List Char :=
  if s.exponent < leastPositional ∨ (shownDigits : Int) ≤ s.exponent then
    let mantissa :=
      match s.digits with
      | d :: [] => [d]
      | d :: ds => d :: '.' :: ds
      | [] => []
    mantissa ++ 'ᴇ' :: (Int.repr s.exponent).toList
  else if s.exponent < 0 then
    '0' :: '.' :: (List.replicate (-s.exponent - 1).toNat '0' ++ s.digits)
  else
    let whole := s.exponent.toNat + 1
    if s.digits.length ≤ whole then
      s.digits ++ List.replicate (whole - s.digits.length) '0'
    else s.digits.take whole ++ '.' :: s.digits.drop whole

/-- The text of a real number. -/
def realText (x : Float) : List Char :=
  match x.toModel.unpack with
  | .notANumber => "NaN".toList
  | .infinity .positive => "+Inf".toList
  | .infinity .negative => "-Inf".toList
  | .zero _ => ['0']
  | .finite s m e _ =>
    let num := m <<< e.toNat
    let den := 1 <<< (-e).toNat
    let t := decimalText (Scientific.nearest shownDigits num den)
    match s with
    | .positive => t
    | .negative => '-' :: t

/-- The text of an imaginary part, without its sign. -/
def imaginaryText (y : Float) : List Char :=
  let t := realText y.abs
  (if t = ['1'] then [] else t) ++ ['i']

/-- The characters of a number's text: a zero part is left out, and a unit imaginary part is `i`. -/
def chars (z : Number) : List Char :=
  if z.im == 0 then realText z.re
  else if z.re == 0 then
    if z.im < 0 then '-' :: imaginaryText z.im else imaginaryText z.im
  else realText z.re ++ (if z.im < 0 then '-' else '+') :: imaginaryText z.im

/-- The text of a number as the home screen shows it. -/
def text (z : Number) : String := String.ofList z.chars

end Handheld.Number
