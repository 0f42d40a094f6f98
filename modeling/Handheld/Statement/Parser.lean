import Handheld.Expr.Parser
import Handheld.Statement.Basic

/-!
# Parsing statements

Tokens are cut at the separators; each piece that is not empty must form one statement.
-/

namespace Handheld

namespace Expr

/-- Tokens that must form exactly one expression. -/
def ofTokens (ts : List Token) : Except ParseFault Expr := do
  let e ← readChain none ts
  match e.rest with
  | [] => return e.value
  | t :: _ => .error (.unexpected t)

end Expr

namespace Statement

/-- Nothing may follow. -/
def expectEnd : List Token → Except ParseFault Unit
  | [] => .ok ()
  | t :: _ => .error (.unexpected t)

/-- The target that a token names. -/
def targetOf (t : Token) : Except ParseFault Target :=
  match t.symbol with
  | .var c => .ok (.var c)
  | .list n => .ok (.list n)
  | _ => .error (.badTarget t)

/-- The one target that is left; `last` is the token before it. -/
def readTarget (last : Token) : List Token → Except ParseFault Target
  | [] => .error (.endOfInput (some last))
  | t :: ts => do
    let target ← targetOf t
    expectEnd ts
    return target

/-- The condition after a keyword. -/
def readCondition (word : Token) (ts : List Token) : Except ParseFault Expr :=
  match ts with
  | [] => .error (.endOfInput (some word))
  | _ => Expr.ofTokens ts

/-- Expressions with commas between them, up to the end. -/
def readArguments (ts : List Token) : Except ParseFault (List Expr) :=
  if ts.isEmpty then .ok []
  else do
    let e ← Expr.readChain none ts
    match h : e.rest with
    | [] => return [e.value]
    | t :: rest =>
      have := e.rest_shorter h
      if t.symbol = .comma then
        if rest.isEmpty then .error (.endOfInput (some t))
        else do
          let more ← readArguments rest
          return e.value :: more
      else .error (.unexpected t)
termination_by ts.length

/-- Targets with commas between them, up to the end; `last` is the token before them. -/
def readTargets (last : Token) : List Token → Except ParseFault (List Target)
  | [] => .error (.endOfInput (some last))
  | [t] => do return [← targetOf t]
  | t :: c :: ts => do
    let target ← targetOf t
    if c.symbol = .comma then
      let more ← readTargets c ts
      return target :: more
    else .error (.unexpected c)

/-- The text and the target after `Input`; without a text a question mark is shown. -/
def readInput (word : Token) (ts : List Token) : Except ParseFault Instruction :=
  match ts with
  | ⟨.string s, p⟩ :: rest =>
    match rest with
    | [] => .error (.endOfInput (some ⟨.string s, p⟩))
    | c :: rest =>
      if c.symbol = .comma then return .input s (← readTarget c rest) else .error (.unexpected c)
  | _ => return .input "?" (← readTarget word ts)

/-- An expression, with an arrow and a target after it or not. -/
def readExpression (ts : List Token) : Except ParseFault Instruction := do
  let e ← Expr.readChain none ts
  match e.rest with
  | [] => return .expression e.value none
  | t :: rest =>
    if t.symbol = .store then return .expression e.value (some (← readTarget t rest))
    else .error (.unexpected t)

/-- The instruction that a piece of a program forms. -/
def readInstruction (t : Token) (ts : List Token) : Except ParseFault Instruction := do
  match t.symbol with
  | .keyword .cond => return .cond (← readCondition t ts)
  | .keyword .whileLoop => return .whileLoop (← readCondition t ts)
  | .keyword .repeatLoop => return .repeatLoop (← readCondition t ts)
  | .keyword .consequent => expectEnd ts; return .consequent
  | .keyword .alternative => expectEnd ts; return .alternative
  | .keyword .blockEnd => expectEnd ts; return .blockEnd
  | .keyword .stop => expectEnd ts; return .stop
  | .keyword .ret => expectEnd ts; return .ret
  | .program name => expectEnd ts; return .call name
  | .keyword .display => return .display (← readArguments ts)
  | .keyword .prompt => return .prompt (← readTargets t ts)
  | .keyword .input => readInput t ts
  | _ => readExpression (t :: ts)

/-- The statement that a piece of a program forms; an empty piece forms none. -/
def ofPiece? : List Token → Except ParseFault (Option Statement)
  | [] => .ok none
  | t :: ts => do
    let i ← readInstruction t ts
    return some ⟨i, t.position⟩

/-- The statements of the pieces before the first fault, and that fault. -/
def readPieces : List (List Token) → List Statement × Option ParseFault
  | [] => ([], none)
  | piece :: pieces =>
    match ofPiece? piece with
    | .error f => ([], some f)
    | .ok s =>
      let (ss, f) := readPieces pieces
      (s.toList ++ ss, f)

/-- The statements before the first fault in a token list, and that fault. -/
def readAll (ts : List Token) : List Statement × Option ParseFault :=
  readPieces (Token.statements ts)

/-- The statements of a token list. -/
def ofTokens (ts : List Token) : Except ParseFault (List Statement) :=
  match readAll ts with
  | (_, some f) => .error f
  | (ss, none) => .ok ss

end Statement

end Handheld
