import Handheld.Proofs.Run

/-!
# Structured programs

A structured program is a tree: simple statements in a row, statements guarded by `If`, branches and
loops, nested to any depth. Written out, it is a flat list of statements like any other program. Its
meaning is given here on the tree alone, without a program counter and without open blocks.
-/

namespace Handheld

/-- A statement that has nothing to do with blocks. -/
inductive Simple
  /-- An expression, and where its value is stored. -/
  | expression (e : Expr) (target : Option Target)
  /-- `Disp` -/
  | display (arguments : List Expr)
  /-- `Input` -/
  | input (text : String) (target : Target)
  /-- `Prompt` -/
  | prompt (targets : List Target)
  /-- `prgm` -/
  | call (program : String)
  /-- `Stop` -/
  | stop
  /-- `Return` -/
  | ret

/-- A structured program. The positions are those of the words that shape it. -/
inductive Code
  /-- No statement. -/
  | empty
  /-- One part after the other. -/
  | seq (first second : Code)
  /-- A simple statement. -/
  | simple (x : Simple) (pos : Position)
  /-- `If` with one simple statement. -/
  | guarded (test : Expr) (ifPos : Position) (x : Simple) (pos : Position)
  /-- `If`, `Then`, a block, `End`. -/
  | cond (test : Expr) (ifPos thenPos endPos : Position) (body : Code)
  /-- `If`, `Then`, a block, `Else`, a block, `End`. -/
  | branch (test : Expr) (ifPos thenPos elsePos endPos : Position) (body other : Code)
  /-- `While`, a block, `End`. -/
  | whileLoop (test : Expr) (pos endPos : Position) (body : Code)
  /-- `Repeat`, a block, `End`. -/
  | repeatLoop (test : Expr) (pos endPos : Position) (body : Code)

namespace Simple

/-- The instruction of a simple statement. -/
def instruction : Simple → Instruction
  | expression e target => .expression e target
  | display es => .display es
  | input text t => .input text t
  | prompt ts => .prompt ts
  | call name => .call name
  | stop => .stop
  | ret => .ret

/-- What a simple statement does on its own, and how the program ends if it ends there. What a call
does is up to the program that is called. -/
def perform (r : Registry) : Simple → Action Signal
  | expression e target => do
    let v ← e.eval r
    match target with
    | some t => Action.store v t
    | none => pure ()
    Action.setAns v
    return .none
  | display es => do
    let vs ← Expr.evalAll r es
    let _ ← r.run Builtin.displayName vs
    return .none
  | input text t => do
    readInto r text t
    return .none
  | prompt ts => do
    promptAll r ts
    return .none
  | call _ => return .none
  | stop => return .stop
  | ret => return .ret

end Simple

namespace Ending

/-- The program does not go on: it has stopped, returned or failed. -/
def Leaves (o : Ending Signal) : Prop := ∀ s, o ≠ .ok .none s

/-- What the end of a called program is to its caller: only `Stop` and faults end that as well. -/
def toCaller : Ending Signal → Ending Signal
  | .ok .stop s => .ok .stop s
  | .ok _ s => .ok .none s
  | .error f s => .error f s

end Ending

/-- A simple statement at a place, run on a scene, comes out so. -/
inductive Simple.Runs (c : Context) (depth : Nat) (pos : Position) :
    Simple → Scene → Ending Signal → Prop
  | perform {x : Simple} {s : Scene} (h : ∀ name, x ≠ .call name) :
      Simple.Runs c depth pos x s ((x.perform c.commands).onScene s)
  | undefined {name : String} {s : Scene} (h : c.programs[name]? = none) :
      Simple.Runs c depth pos (.call name) s (.error (.undefinedProgram name (some pos)) s)
  | call {name : String} {callee : Program} {s : Scene} {o : Ending Signal}
      (h : c.programs[name]? = some callee) (hends : Ends c depth callee s o) :
      Simple.Runs c depth pos (.call name) s o.toCaller

namespace Code

/-- The flat list of statements of a structured program. -/
def flatten : Code → List Statement
  | empty => []
  | seq a b => a.flatten ++ b.flatten
  | simple x pos => [⟨x.instruction, pos⟩]
  | guarded test ifPos x pos => [⟨.cond test, ifPos⟩, ⟨x.instruction, pos⟩]
  | cond test ifPos thenPos endPos body =>
    ⟨.cond test, ifPos⟩ :: ⟨.consequent, thenPos⟩ :: (body.flatten ++ [⟨.blockEnd, endPos⟩])
  | branch test ifPos thenPos elsePos endPos body other =>
    ⟨.cond test, ifPos⟩ :: ⟨.consequent, thenPos⟩ ::
      (body.flatten ++ ⟨.alternative, elsePos⟩ :: (other.flatten ++ [⟨.blockEnd, endPos⟩]))
  | whileLoop test pos endPos body =>
    ⟨.whileLoop test, pos⟩ :: (body.flatten ++ [⟨.blockEnd, endPos⟩])
  | repeatLoop test pos endPos body =>
    ⟨.repeatLoop test, pos⟩ :: (body.flatten ++ [⟨.blockEnd, endPos⟩])

/-- The condition that is tested before anything else is done. -/
def firstTest : Code → Option Expr
  | guarded test _ _ _ | cond test _ _ _ _ | branch test _ _ _ _ _ _ | whileLoop test _ _ _ =>
    some test
  | empty | seq _ _ | simple _ _ | repeatLoop _ _ _ _ => none

/-- A structured program, run on a scene as the `depth`-th running program, comes out so. -/
inductive Runs (c : Context) (depth : Nat) : Code → Scene → Ending Signal → Prop
  | empty {s : Scene} : Runs c depth .empty s (.ok .none s)
  | seq {a b : Code} {s s' : Scene} {o : Ending Signal} (ha : Runs c depth a s (.ok .none s'))
      (hb : Runs c depth b s' o) : Runs c depth (.seq a b) s o
  | seqLeft {a b : Code} {s : Scene} {o : Ending Signal} (ha : Runs c depth a s o)
      (ho : o.Leaves) : Runs c depth (.seq a b) s o
  | simple {x : Simple} {pos : Position} {s : Scene} {o : Ending Signal}
      (hx : x.Runs c depth pos s o) : Runs c depth (.simple x pos) s o
  | testFails {code : Code} {test : Expr} {s s' : Scene} {f : Fault}
      (hcode : code.firstTest = some test)
      (htest : (test.test c.commands).onScene s = .error f s') :
      Runs c depth code s (.error f s')
  | guardedTrue {test : Expr} {ifPos pos : Position} {x : Simple} {s s' : Scene}
      {o : Ending Signal} (htest : (test.test c.commands).onScene s = .ok true s')
      (hx : x.Runs c depth pos s' o) : Runs c depth (.guarded test ifPos x pos) s o
  | guardedFalse {test : Expr} {ifPos pos : Position} {x : Simple} {s s' : Scene}
      (htest : (test.test c.commands).onScene s = .ok false s') :
      Runs c depth (.guarded test ifPos x pos) s (.ok .none s')
  | condTrue {test : Expr} {ifPos thenPos endPos : Position} {body : Code} {s s' : Scene}
      {o : Ending Signal} (htest : (test.test c.commands).onScene s = .ok true s')
      (hbody : Runs c depth body s' o) : Runs c depth (.cond test ifPos thenPos endPos body) s o
  | condFalse {test : Expr} {ifPos thenPos endPos : Position} {body : Code} {s s' : Scene}
      (htest : (test.test c.commands).onScene s = .ok false s') :
      Runs c depth (.cond test ifPos thenPos endPos body) s (.ok .none s')
  | branchTrue {test : Expr} {ifPos thenPos elsePos endPos : Position} {body other : Code}
      {s s' : Scene} {o : Ending Signal}
      (htest : (test.test c.commands).onScene s = .ok true s') (hbody : Runs c depth body s' o) :
      Runs c depth (.branch test ifPos thenPos elsePos endPos body other) s o
  | branchFalse {test : Expr} {ifPos thenPos elsePos endPos : Position} {body other : Code}
      {s s' : Scene} {o : Ending Signal}
      (htest : (test.test c.commands).onScene s = .ok false s') (hother : Runs c depth other s' o) :
      Runs c depth (.branch test ifPos thenPos elsePos endPos body other) s o
  | whileFalse {test : Expr} {pos endPos : Position} {body : Code} {s s' : Scene}
      (htest : (test.test c.commands).onScene s = .ok false s') :
      Runs c depth (.whileLoop test pos endPos body) s (.ok .none s')
  | whileTrue {test : Expr} {pos endPos : Position} {body : Code} {s s' s'' : Scene}
      {o : Ending Signal} (htest : (test.test c.commands).onScene s = .ok true s')
      (hbody : Runs c depth body s' (.ok .none s''))
      (hagain : Runs c depth (.whileLoop test pos endPos body) s'' o) :
      Runs c depth (.whileLoop test pos endPos body) s o
  | whileLeft {test : Expr} {pos endPos : Position} {body : Code} {s s' : Scene}
      {o : Ending Signal} (htest : (test.test c.commands).onScene s = .ok true s')
      (hbody : Runs c depth body s' o) (ho : o.Leaves) :
      Runs c depth (.whileLoop test pos endPos body) s o
  | repeatLeft {test : Expr} {pos endPos : Position} {body : Code} {s : Scene} {o : Ending Signal}
      (hbody : Runs c depth body s o) (ho : o.Leaves) :
      Runs c depth (.repeatLoop test pos endPos body) s o
  | repeatFails {test : Expr} {pos endPos : Position} {body : Code} {s s' s'' : Scene} {f : Fault}
      (hbody : Runs c depth body s (.ok .none s'))
      (htest : (test.test c.commands).onScene s' = .error f s'') :
      Runs c depth (.repeatLoop test pos endPos body) s (.error f s'')
  | repeatTrue {test : Expr} {pos endPos : Position} {body : Code} {s s' s'' : Scene}
      (hbody : Runs c depth body s (.ok .none s'))
      (htest : (test.test c.commands).onScene s' = .ok true s'') :
      Runs c depth (.repeatLoop test pos endPos body) s (.ok .none s'')
  | repeatFalse {test : Expr} {pos endPos : Position} {body : Code} {s s' s'' : Scene}
      {o : Ending Signal} (hbody : Runs c depth body s (.ok .none s'))
      (htest : (test.test c.commands).onScene s' = .ok false s'')
      (hagain : Runs c depth (.repeatLoop test pos endPos body) s'' o) :
      Runs c depth (.repeatLoop test pos endPos body) s o

end Code

end Handheld
