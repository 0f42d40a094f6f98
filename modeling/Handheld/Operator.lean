/-!
# Operators

The operators of the language, with the symbol under which each is registered as a command and, for
the binary ones, its priority.
-/

namespace Handheld

/-- An operator between two operands. -/
inductive BinaryOp
  | add | subtract | multiply | divide | power
  | equal | notEqual | less | greater | lessEqual | greaterEqual
  | and | or | xor
deriving DecidableEq, Repr

namespace BinaryOp

/-- The canonical spelling. -/
def symbol : BinaryOp → String
  | add => "+"
  | subtract => "-"
  | multiply => "*"
  | divide => "/"
  | power => "^"
  | equal => "="
  | notEqual => "≠"
  | less => "<"
  | greater => ">"
  | lessEqual => "≤"
  | greaterEqual => "≥"
  | and => "and"
  | or => "or"
  | xor => "xor"

/-- Operators of higher priority bind first; equal ones from left to right. -/
def priority : BinaryOp → Nat
  | or | xor => 10
  | and => 20
  | equal | notEqual | less | greater | lessEqual | greaterEqual => 30
  | add | subtract => 40
  | multiply | divide => 50
  | power => 70

end BinaryOp

/-- An operator on one operand: negation stands before it, the others after it. -/
inductive UnaryOp
  | negate | square | inverse | factorial
deriving DecidableEq, Repr

namespace UnaryOp

/-- The canonical spelling. -/
def symbol : UnaryOp → String
  | negate => "‾"
  | square => "²"
  | inverse => "⁻¹"
  | factorial => "!"

/-- The operator stands after its operand. -/
def isTrailing : UnaryOp → Bool
  | negate => false
  | square | inverse | factorial => true

end UnaryOp

end Handheld
