import Handheld.Builtin

/-!
# Evaluation of expressions

An expression is evaluated from left to right; its operators and functions are commands that are
looked up by name. A command that produces nothing is refused inside an expression.
-/

namespace Handheld

namespace Expr

/-- The result of a command at the expression `e`, which must be a value. -/
def produce (e : Expr) (a : Action (Option Value)) : Action (Option Value) := do
  match ← a with
  | some v => return some v
  | none => throw (.noValue e)

mutual

/-- The value of an expression. -/
def eval (r : Registry) : Expr → Action (Option Value)
  | .number z _ => return some (.number z)
  | .string s _ => return some (.string s)
  | .var c _ => return some (.number ((← get).memory.number c))
  | .listVar n _ => do
    let zs ← Action.ofExcept ((← get).memory.list n)
    return some (.list zs)
  | .ans _ => return (← get).memory.ans
  | .list es _ =>
    if Value.maxListLength < es.length then throw (.listTooLong es.length)
    else return some (.list (← evalElements r es))
  | .unary op x p => do
    let v ← eval r x
    produce (.unary op x p) (r.run op.symbol [v])
  | .binary op x y p => do
    let v ← eval r x
    let w ← eval r y
    produce (.binary op x y p) (r.run op.symbol [v, w])
  | .call f es p => do
    let vs ← evalAll r es
    produce (.call f es p) (r.run f vs)

/-- The values of some expressions. -/
def evalAll (r : Registry) : List Expr → Action (List (Option Value))
  | [] => return []
  | e :: es => do
    let v ← eval r e
    let vs ← evalAll r es
    return v :: vs

/-- The elements of a list literal, which must be numbers. -/
def evalElements (r : Registry) : List Expr → Action (List Number)
  | [] => return []
  | e :: es => do
    match ← eval r e with
    | some (.number z) => return z :: (← evalElements r es)
    | v => throw (.element v e.position)

end

/-- The truth of a condition. -/
def test (r : Registry) (e : Expr) : Action Bool := do
  let v ← e.eval r
  Action.ofExcept (Value.truth v)

/-- The value of a text that forms one expression. -/
def evalText (r : Registry) (text : String) : Action (Option Value) := do
  let e ← Action.ofExcept (Program.parseExpression text)
  e.eval r

end Expr

end Handheld
