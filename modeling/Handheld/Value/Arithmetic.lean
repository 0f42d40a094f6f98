import Handheld.Fault
import Handheld.Number.Functions

/-!
# Arithmetic of values

An operation on numbers extends to lists: a list is combined with a number element by element, and
two lists of the same length place by place. The first element that fails decides the fault.
-/

namespace Handheld.Value

/-- Combines two numeric values by an operation on numbers. -/
def broadcast (f : Number → Number → Except Fault Number) : Value → Value → Except Fault Value
  | .number a, .number b => return .number (← f a b)
  | .number a, .list bs => return .list (← bs.mapM (f a ·))
  | .list as, .number b => return .list (← as.mapM (f · b))
  | .list as, .list bs =>
    if as.length = bs.length then return .list (← (as.zip bs).mapM fun (a, b) => f a b)
    else .error (.dimensions as bs)
  | .string s, _ => .error (.mismatch .left .number (some (.string s)))
  | _, .string s => .error (.mismatch .right .number (some (.string s)))

/-- Applies an operation on numbers to a number, or to each element of a list. -/
def mapNumbers (f : Number → Except Fault Number) : Value → Except Fault Value
  | .number z => return .number (← f z)
  | .list zs => return .list (← zs.mapM f)
  | .string s => .error (.mismatch .none .number (some (.string s)))

/-- The truth of a condition: a number is true if a part of it is not zero. -/
def truth : Option Value → Except Fault Bool
  | some (.number z) => .ok !z.isZero
  | v => .error (.condition v)

end Handheld.Value

namespace Handheld.Number

/-- The quotient; the divisor must not be zero. -/
def divide (a b : Number) : Except Fault Number :=
  if b.isZero then .error (.domain .divisionByZero) else .ok (a.div b)

/-- The power. Zero has positive powers only; a real power of a real base stays real where it
can. -/
def power (a b : Number) : Except Fault Number :=
  if a.isZero then
    if b.isZero || b.re ≤ 0 then .error (.domain .zeroPower) else .ok zero
  else if a.isReal && b.isReal then
    if 0 < a.re || Double.isIntegral b.re then .ok (ofReal (Double.pow a.re b.re))
    else .ok ((ofReal a.re).pow (ofReal b.re))
  else .ok (a.pow b)

/-- Compares the real parts of two real numbers. -/
def order (test : Float → Float → Bool) (a b : Number) : Except Fault Number :=
  if a.isReal && b.isReal then .ok (ofBool (test a.re b.re)) else .error (.domain .unordered)

end Handheld.Number

namespace Handheld.BinaryOp

/-- The operation on numbers that an operator stands for. -/
def onNumbers : BinaryOp → Number → Number → Except Fault Number
  | add => fun a b => .ok (a.add b)
  | subtract => fun a b => .ok (a.sub b)
  | multiply => fun a b => .ok (a.mul b)
  | divide => Number.divide
  | power => Number.power
  | equal => fun a b => .ok (.ofBool (a.equals b))
  | notEqual => fun a b => .ok (.ofBool !a.equals b)
  | less => Number.order (· < ·)
  | greater => Number.order (· > ·)
  | lessEqual => Number.order (· ≤ ·)
  | greaterEqual => Number.order (· ≥ ·)
  | and => fun a b => .ok (.ofBool (!a.isZero && !b.isZero))
  | or => fun a b => .ok (.ofBool (!a.isZero || !b.isZero))
  | xor => fun a b => .ok (.ofBool (!a.isZero != !b.isZero))

/-- The operation on values that an operator stands for. -/
def apply (op : BinaryOp) : Value → Value → Except Fault Value :=
  Value.broadcast op.onNumbers

end Handheld.BinaryOp
