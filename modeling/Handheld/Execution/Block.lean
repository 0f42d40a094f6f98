import Handheld.Evaluation

/-!
# Blocks

While a program runs, the blocks it is inside of are kept as frames. A block that is not run is
skipped by counting the block words up to its end.
-/

namespace Handheld

/-- What an open block is. -/
inductive Block
  /-- `If … Then`, in its first or in its `Else` branch. -/
  | cond (inElse : Bool)
  /-- `While` -/
  | whileLoop
  /-- `Repeat`, with the condition that ends it. -/
  | repeatLoop (test : Expr)

/-- An open block. -/
structure Frame where
  /-- What it is. -/
  block : Block
  /-- The index of the statement that opened it. -/
  header : Nat

namespace Statement

/-- The statement is `Then`. -/
def isThen (s : Statement) : Bool :=
  match s.instruction with
  | .consequent => true
  | _ => false

/-- The statement is `Else`. -/
def isElse (s : Statement) : Bool :=
  match s.instruction with
  | .alternative => true
  | _ => false

/-- The index of the statement that ends the block whose rest is given, the first of which has the
index `i`: its `End`, or with `stopAtElse` its `Else`. A block that is never closed ends with the
program. `depth` counts the blocks opened meanwhile. -/
def skip (stopAtElse : Bool) (depth i : Nat) : List Statement → Except Fault Nat
  | [] => .ok i
  | s :: ss =>
    match s.instruction with
    | .cond _ =>
      match ss with
      | [] => .ok (i + 1)
      | t :: rest =>
        if t.isThen then skip stopAtElse (depth + 1) (i + 2) rest
        else skip stopAtElse depth (i + 1) (t :: rest)
    | .whileLoop _ | .repeatLoop _ => skip stopAtElse (depth + 1) (i + 1) ss
    | .alternative =>
      if depth = 0 then
        if stopAtElse then .ok i else .error (.control .elseWithoutIf s.position)
      else skip stopAtElse depth (i + 1) ss
    | .blockEnd => if depth = 0 then .ok i else skip stopAtElse (depth - 1) (i + 1) ss
    | _ => skip stopAtElse depth (i + 1) ss

end Statement

end Handheld
