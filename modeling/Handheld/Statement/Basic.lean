import Handheld.Expr.Basic

/-!
# Statements

A program is a flat list of statements. Blocks are not nested in the tree: the words that open,
divide and close them are statements of their own.
-/

namespace Handheld

/-- Where a value can be stored. -/
inductive Target
  /-- A numeric variable. -/
  | var (name : Char)
  /-- A list variable. -/
  | list (name : String)
deriving DecidableEq, Repr

namespace Target

/-- The target as messages show it. -/
def describe : Target → String
  | var c => "Variable " ++ c.toString
  | list n => "List variable " ++ Name.listMarker.toString ++ n

/-- The target as it is written. -/
def text : Target → String
  | var c => c.toString
  | list n => Name.listMarker.toString ++ n

end Target

/-- What a statement does. -/
inductive Instruction
  /-- `If`: guards the next statement, or a block if that is `Then`. -/
  | cond (test : Expr)
  /-- `Then` -/
  | consequent
  /-- `Else` -/
  | alternative
  /-- `While` -/
  | whileLoop (test : Expr)
  /-- `Repeat`: tests at the end of the block. -/
  | repeatLoop (test : Expr)
  /-- `End` -/
  | blockEnd
  /-- `Stop`: ends every running program. -/
  | stop
  /-- `Return`: ends the running program. -/
  | ret
  /-- `Disp` -/
  | display (arguments : List Expr)
  /-- `Input`: shows a text and reads a value. -/
  | input (text : String) (target : Target)
  /-- `Prompt`: reads a value for each target. -/
  | prompt (targets : List Target)
  /-- `prgm`: runs a program. -/
  | call (program : String)
  /-- An expression, and where its value is stored. -/
  | expression (e : Expr) (target : Option Target)
deriving Repr

namespace Instruction

/-- The instruction as messages show it. -/
def describe : Instruction → String
  | cond e => "If (" ++ e.describe ++ ")"
  | consequent => "Then"
  | alternative => "Else"
  | whileLoop e => "While (" ++ e.describe ++ ")"
  | repeatLoop e => "Repeat (" ++ e.describe ++ ")"
  | blockEnd => "End"
  | stop => "Stop"
  | ret => "Return"
  | display es => "Disp (" ++ Expr.describeAll es ++ ")"
  | input t target => "Input " ++ Text.quoted t ++ " (" ++ target.describe ++ ")"
  | prompt targets => "Prompt (" ++ ", ".intercalate (targets.map (·.describe)) ++ ")"
  | call name => "Program call " ++ name
  | expression e none => e.describe
  | expression e (some target) => "(" ++ e.describe ++ ") → (" ++ target.describe ++ ")"

end Instruction

/-- An instruction at a place. -/
structure Statement where
  /-- What is done. -/
  instruction : Instruction
  /-- Where the first token of the statement stands. -/
  position : Position
deriving Repr

namespace Statement

/-- The statement as messages show it. -/
def describe (s : Statement) : String := s.instruction.describe

end Statement

end Handheld
