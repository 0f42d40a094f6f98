import Handheld.Execution.Block

/-!
# One statement

The effect of every statement but the call of a program: where the program goes on and with which
open blocks, or how it ends.
-/

namespace Handheld

/-- What follows a statement. -/
inductive Progress
  /-- The program goes on at an index with some open blocks, innermost first. -/
  | next (index : Nat) (frames : List Frame)
  /-- The program ends. -/
  | done (s : Signal)

/-- Shows a text, reads an expression and stores its value. -/
def readInto (r : Registry) (text : String) (t : Target) : Action Unit := do
  Action.print text .promptFailed
  let line ← Action.read
  let v ← Expr.evalText r line
  Action.store v t

/-- Reads a value for each target. -/
def promptAll (r : Registry) : List Target → Action Unit
  | [] => return
  | t :: ts => do
    readInto r (t.text ++ "=?") t
    promptAll r ts

/-- The part of a program that a statement can see and change. -/
structure Place where
  /-- All statements of the program. -/
  statements : List Statement
  /-- The index of the statement. -/
  index : Nat
  /-- The open blocks, innermost first. -/
  frames : List Frame

namespace Place

/-- The next statement is `Then`. -/
def beforeThen (p : Place) : Bool := (p.statements[p.index + 1]?).any (·.isThen)

/-- The program goes on with the next statement. -/
def advance (p : Place) : Progress := .next (p.index + 1) p.frames

/-- The index that ends the block whose rest starts `n` statements ahead. -/
def skip (p : Place) (n : Nat) (stopAtElse : Bool) : Except Fault Nat :=
  Statement.skip stopAtElse 0 (p.index + n) (p.statements.drop (p.index + n))

/-- `If` -/
def runCond (p : Place) (r : Registry) (test : Expr) : Action Progress := do
  let holds ← test.test r
  if p.beforeThen then
    if holds then return .next (p.index + 2) (⟨.cond false, p.index⟩ :: p.frames)
    else
      let i ← Action.ofExcept (p.skip 2 true)
      if (p.statements[i]?).any (·.isElse) then
        return .next (i + 1) (⟨.cond true, p.index⟩ :: p.frames)
      else return .next (i + 1) p.frames
  else if holds then return p.advance
  else return .next (p.index + 2) p.frames

/-- `Else`, reached at the end of the first branch. -/
def runElse (p : Place) (pos : Position) : Action Progress :=
  match p.frames with
  | ⟨.cond false, _⟩ :: outer => do
    let i ← Action.ofExcept (p.skip 1 false)
    return .next (i + 1) outer
  | _ => throw (.control .elseWithoutIf pos)

/-- `While` -/
def runWhile (p : Place) (r : Registry) (test : Expr) (pos : Position) : Action Progress := do
  if p.beforeThen then throw (.control .whileThen pos)
  else if ← test.test r then return .next (p.index + 1) (⟨.whileLoop, p.index⟩ :: p.frames)
  else
    let i ← Action.ofExcept (p.skip 1 false)
    return .next (i + 1) p.frames

/-- `Repeat` -/
def runRepeat (p : Place) (test : Expr) (pos : Position) : Action Progress := do
  if p.beforeThen then throw (.control .repeatThen pos)
  else return .next (p.index + 1) (⟨.repeatLoop test, p.index⟩ :: p.frames)

/-- `End`: a `While` goes back to its condition, a `Repeat` to its body unless its condition
holds. -/
def runEnd (p : Place) (r : Registry) (pos : Position) : Action Progress :=
  match p.frames with
  | [] => throw (.control .endWithoutBlock pos)
  | f :: outer =>
    match f.block with
    | .cond _ => return .next (p.index + 1) outer
    | .whileLoop => return .next f.header outer
    | .repeatLoop test => do
      if ← test.test r then return .next (p.index + 1) outer
      else return .next (f.header + 1) (f :: outer)

/-- An expression: its value is stored, if asked for, and becomes the last result. -/
def runExpression (p : Place) (r : Registry) (e : Expr) (target : Option Target) :
    Action Progress := do
  let v ← e.eval r
  match target with
  | some t => Action.store v t
  | none => pure ()
  Action.setAns v
  return p.advance

/-- Executes a statement that calls no program. -/
def step (p : Place) (r : Registry) (program : String) (s : Statement) : Action Progress :=
  match s.instruction with
  | .cond test => p.runCond r test
  | .consequent => throw (.control .thenWithoutIf s.position)
  | .alternative => p.runElse s.position
  | .whileLoop test => p.runWhile r test s.position
  | .repeatLoop test => p.runRepeat test s.position
  | .blockEnd => p.runEnd r s.position
  | .stop => do
    Action.record (.stopped program p.frames.length)
    return .done .stop
  | .ret => return .done .ret
  | .display es => do
    let vs ← Expr.evalAll r es
    let _ ← r.run Builtin.displayName vs
    return p.advance
  | .input text t => do
    readInto r text t
    return p.advance
  | .prompt ts => do
    promptAll r ts
    return p.advance
  | .call _ => return p.advance
  | .expression e target => p.runExpression r e target

end Place

end Handheld
