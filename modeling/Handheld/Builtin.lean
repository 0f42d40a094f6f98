import Handheld.Command

/-!
# The built-in commands

Every operator and function of the language, in the order in which they are registered. Functions of
a real number stay on the real line where they can; elsewhere the complex function is used.
-/

namespace Handheld.Builtin

/-- A function that is `r` on real numbers and `c` elsewhere. -/
def realOrComplex (r : Float → Float) (c : Number → Number) (z : Number) : Except Fault Number :=
  .ok (if z.isReal then .ofReal (r z.re) else c z)

/-- A function of each part. -/
def partwise (f : Float → Float) (z : Number) : Except Fault Number := .ok (z.mapParts f)

/-- The inverse; zero has none. -/
def inverse (z : Number) : Except Fault Number := Number.one.divide z

/-- The factorial of an integer from 0 to 69. -/
def factorial (z : Number) : Except Fault Number :=
  let n := z.re
  if z.isReal && 0 ≤ n && Double.isIntegral n && n ≤ Float.ofNat DomainFault.maxFactorial then
    .ok (.ofReal ((List.range' 2 (Double.magnitude n - 1)).foldl (fun p i => p * Float.ofNat i) 1))
  else .error (.domain (.factorial z))

/-- The square root; that of a negative number is imaginary. -/
def squareRoot (z : Number) : Except Fault Number :=
  .ok
    (if z.isReal then
      if z.re < 0 then ⟨0, Float.sqrt (-z.re)⟩ else .ofReal (Float.sqrt z.re)
    else z.sqrt)

/-- The tangent; a real number whose cosine is zero has none. -/
def tangent (z : Number) : Except Fault Number :=
  if z.isReal then
    if Double.cos z.re == 0 then .error (.domain (.tangent z)) else .ok (.ofReal (Double.tan z.re))
  else .ok z.tan

/-- An inverse circular function that is real on `[-1, 1]` only. -/
def arc (r : Float → Float) (c : Number → Number) (z : Number) : Except Fault Number :=
  .ok (if z.isReal && z.re.abs ≤ 1 then .ofReal (r z.re) else c z)

/-- A logarithm: real on the positive numbers, with the principal angle elsewhere. -/
def logarithm (r : Float → Float) (c : Number → Number) (z : Number) : Except Fault Number :=
  if z.isZero then .error (.domain .logarithm)
  else if z.isReal then .ok (if 0 < z.re then .ofReal (r z.re) else c (.ofReal z.re))
  else .ok (c z)

/-- The number of elements. -/
def dim : List (Option Value) → Except Fault (Option Value)
  | [some (.list zs)] => .ok (some (.number (.ofNat zs.length)))
  | _ => .error .unchecked

/-- Combines the elements of a list from the left. -/
def fold (f : Number → Number → Number) (start : Number) :
    List (Option Value) → Except Fault (Option Value)
  | [some (.list zs)] => .ok (some (.number (zs.foldl f start)))
  | _ => .error .unchecked

/-- Of two real numbers, the second if it is better, else the first. -/
def pick (name : String) (better : Float → Float → Bool) (a b : Number) : Except Fault Number :=
  if a.isReal && b.isReal then .ok (if better b.re a.re then b else a)
  else .error (.domain (.notReal name))

/-- The best element of a list, or the better of two arguments, place by place. -/
def extremum (name : String) (better : Float → Float → Bool) :
    List (Option Value) → Except Fault (Option Value)
  | [some a, some b] => return some (← Value.broadcast (pick name better) a b)
  | [some (.list [])] => .error (.emptyList name)
  | [some (.list (z :: zs))] => return some (.number (← zs.foldlM (pick name better) z))
  | [some v] => .error (.mismatch .none .list (some v))
  | _ => .error .unchecked

/-- The number of places that `round` keeps if none is given. -/
def defaultPlaces : Nat := 9

/-- The number of places that an argument asks for. -/
def places (z : Number) : Except Fault Nat :=
  if z.isReal && Double.isIntegral z.re && 0 ≤ z.re && z.re ≤ 9 then .ok (Double.magnitude z.re)
  else .error (.domain (.places z))

/-- Rounds a double to some decimal places; a half goes away from zero. -/
def roundPlaces (n : Nat) (x : Float) : Float :=
  let k := Float.ofNat (Nat.pow 10 n)
  Double.round (x * k) / k

/-- Rounds each part of a number, or of each element of a list. -/
def round : List (Option Value) → Except Fault (Option Value)
  | [some v] => return some (← v.mapNumbers (partwise (roundPlaces defaultPlaces)))
  | [some v, some (.number z)] => do
    let n ← places z
    return some (← v.mapNumbers (partwise (roundPlaces n)))
  | _ => .error .unchecked

/-- The functions of one number, by name. -/
def unaryFunctions : List (String × (Number → Except Fault Number)) :=
  [("‾", fun z => .ok z.neg), ("²", fun z => .ok (z.mul z)), ("⁻¹", inverse), ("!", factorial),
    ("√", squareRoot), ("abs", fun z => .ok (.ofReal z.modulus)),
    ("sin", realOrComplex Double.sin Number.sin), ("cos", realOrComplex Double.cos Number.cos),
    ("tan", tangent), ("sin⁻¹", arc Double.asin Number.asin),
    ("cos⁻¹", arc Double.acos Number.acos), ("tan⁻¹", realOrComplex Double.atan Number.atan),
    ("ln", logarithm Double.log Number.log), ("log", logarithm Double.log10 Number.log10),
    ("e^", realOrComplex Double.exp Number.exp), ("int", partwise Double.floor),
    ("iPart", partwise Double.trunc), ("fPart", partwise fun x => x - Double.trunc x),
    ("real", fun z => .ok (.ofReal z.re)), ("imag", fun z => .ok (.ofReal z.im)),
    ("conj", fun z => .ok z.conj), ("angle", fun z => .ok (.ofReal z.phase)),
    ("not", fun z => .ok (.ofBool z.isZero))]

/-- The functions with an arity of their own, by name. -/
def functions : List (String × Command) :=
  [("dim", .function 1 1 [[.list]] dim),
    ("sum", .function 1 1 [[.list]] (fold .add .zero)),
    ("prod", .function 1 1 [[.list]] (fold .mul .one)),
    ("min", .function 1 2 [[.number, .list]] (extremum "min" (· < ·))),
    ("max", .function 1 2 [[.number, .list]] (extremum "max" (· > ·))),
    ("round", .function 1 2 [[.number, .list], [.number]] round)]

/-- The name of the command that prints. -/
def displayName : String := "Disp"

/-- All built-in commands in the order in which they are registered. -/
def commands : List (String × Command) :=
  Symbol.binaryOps.map (fun op => (op.symbol, .binary op.symbol op.apply)) ++
    unaryFunctions.map (fun (name, fn) => (name, .unary name fn)) ++
    functions ++ [(displayName, .display)]

/-- The built-in commands by name. -/
def registry : Registry := Std.TreeMap.ofList commands

end Handheld.Builtin
