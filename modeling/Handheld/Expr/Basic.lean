import Handheld.Number.Text
import Handheld.Operator
import Handheld.Name
import Handheld.Position

/-!
# Expressions

The tree of an expression. Every node knows its place: the place of its operator, or of its first
token where it has none.
-/

namespace Handheld

/-- An expression. -/
inductive Expr
  | number (value : Number) (pos : Position)
  | string (content : String) (pos : Position)
  | var (name : Char) (pos : Position)
  | listVar (name : String) (pos : Position)
  | ans (pos : Position)
  | list (elements : List Expr) (pos : Position)
  | unary (op : UnaryOp) (operand : Expr) (pos : Position)
  | binary (op : BinaryOp) (left right : Expr) (pos : Position)
  | call (function : String) (arguments : List Expr) (pos : Position)
deriving Repr

namespace Expr

/-- The place of an expression. -/
def position : Expr → Position
  | number _ p | string _ p | var _ p | listVar _ p | ans p | list _ p | unary _ _ p
  | binary _ _ _ p | call _ _ p => p

mutual

/-- The expression as messages show it. -/
def describe : Expr → String
  | number z _ => "Number " ++ z.text
  | string s _ => "String " ++ Text.quoted s
  | var c _ => "Variable " ++ c.toString
  | listVar n _ => "List variable " ++ Name.listMarker.toString ++ n
  | ans _ => "Ans"
  | list es _ => "List [" ++ describeAll es ++ "]"
  | unary op e _ => "Unary '" ++ op.symbol ++ "' (" ++ describe e ++ ")"
  | binary op l r _ => "Binary (" ++ describe l ++ ") '" ++ op.symbol ++ "' (" ++ describe r ++ ")"
  | call f es _ => "Call (" ++ f ++ ") on (" ++ describeAll es ++ ")"

/-- Some expressions with commas between them. -/
def describeAll : List Expr → String
  | [] => ""
  | [e] => describe e
  | e :: es => describe e ++ ", " ++ describeAll es

end

end Expr

end Handheld
