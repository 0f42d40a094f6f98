import Handheld.Expr.Basic
import Handheld.Token.Basic

/-!
# Parsing expressions

An expression is a chain of operands with binary operators between them. The chain is read from left
to right and then assembled by priority. An operand is a negation, which covers the powers that
follow it, or a primary with trailing operators. Every reader returns what it leaves of the tokens,
together with a proof that this is shorter, so the readers end.
-/

namespace Handheld

/-- Why tokens do not form an expression or a statement. -/
inductive ParseFault
  /-- The tokens end too early, after the given last one. -/
  | endOfInput (last : Option Token)
  /-- A token that cannot stand where it does. -/
  | unexpected (t : Token)
  /-- A token that is no variable, where a value is stored. -/
  | badTarget (t : Token)
deriving DecidableEq, Repr

namespace ParseFault

/-- The wording of the fault. -/
def message : ParseFault → String
  | endOfInput none => "unexpected end of input"
  | endOfInput (some t) => s!"unexpected end of input at {t.describe}"
  | unexpected t => s!"unexpected token {t.describe}"
  | badTarget t => s!"cannot store into {t.describe}"

end ParseFault

/-- Something read from the front of `ts`, with what is left of it. -/
structure Parsed (α : Type) (ts : List Token) where
  /-- What was read. -/
  value : α
  /-- The tokens that are left. -/
  rest : List Token
  /-- At least one token was read. -/
  shorter : rest.length < ts.length

/-- What follows the first token that is left is shorter still. -/
theorem Parsed.rest_shorter {α : Type} {ts rest : List Token} {t : Token} (r : Parsed α ts)
    (h : r.rest = t :: rest) : rest.length < ts.length := by
  have := r.shorter
  rw [h, List.length_cons] at this
  omega

/-- Something read from the front of `ts`, where reading nothing is possible. -/
structure ParsedMany (α : Type) (ts : List Token) where
  /-- What was read. -/
  value : α
  /-- The tokens that are left. -/
  rest : List Token
  /-- No token was added. -/
  notLonger : rest.length ≤ ts.length

namespace Expr

/-- A binary operator at its place, with the operand after it. -/
structure Link where
  /-- The operator. -/
  op : BinaryOp
  /-- Where it stands. -/
  pos : Position
  /-- The operand on its right. -/
  operand : Expr

/-- An operator that waits for its right operand, with its left one. -/
structure Pending where
  /-- The operand on the left. -/
  left : Expr
  /-- The operator. -/
  op : BinaryOp
  /-- Where it stands. -/
  pos : Position

/-- Gives `e` to the waiting operators whose priority is at least `p`, innermost first, and returns
the operators that still wait. -/
def reduce (p : Nat) : List Pending → Expr → List Pending × Expr
  | [], e => ([], e)
  | w :: ws, e =>
    if p ≤ w.op.priority then reduce p ws (.binary w.op w.left e w.pos) else (w :: ws, e)

/-- Assembles a chain by priority; operators of equal priority group to the left. -/
def assembleFrom (waiting : List Pending) (e : Expr) : List Link → Expr
  | [] => (reduce 0 waiting e).2
  | l :: ls =>
    let (waiting, left) := reduce l.op.priority waiting e
    assembleFrom (⟨left, l.op, l.pos⟩ :: waiting) l.operand ls

/-- The tree of a chain. -/
def assemble (e : Expr) (links : List Link) : Expr := assembleFrom [] e links

/-- Wraps an expression into the trailing operators that follow it. -/
def trailing (e : Expr) : List Token → Expr × List Token
  | [] => (e, [])
  | t :: ts =>
    match t.symbol with
    | .unary op => if op.isTrailing then trailing (.unary op e t.position) ts else (e, t :: ts)
    | _ => (e, t :: ts)

/-- Trailing operators are taken off the front of the tokens. -/
theorem trailing_length (e : Expr) (ts : List Token) :
    (trailing e ts).2.length ≤ ts.length := by
  induction ts generalizing e with
  | nil => simp [trailing]
  | cons t ts ih =>
    unfold trailing
    split
    · split
      · exact Nat.le_trans (ih _) (by simp)
      · simp
    · simp

/-- The expression that a token forms on its own. -/
def atom? (t : Token) : Option Expr :=
  match t.symbol with
  | .number _ x => some (.number (.ofReal x) t.position)
  | .imaginaryUnit => some (.number .imaginaryUnit t.position)
  | .pi => some (.number (.ofReal Double.pi) t.position)
  | .euler => some (.number (.ofReal Double.euler) t.position)
  | .string s => some (.string s t.position)
  | .ans => some (.ans t.position)
  | .var c => some (.var c t.position)
  | .list n => some (.listVar n t.position)
  | _ => none

/-- The tokens end inside `ts`. -/
def endOf (ts : List Token) : ParseFault := .endOfInput ts.getLast?

mutual

/-- Reads an operand; `blame` is the token to name if there is none. -/
def readOperand (blame : Option Token) (ts : List Token) : Except ParseFault (Parsed Expr ts) :=
  match ts with
  | [] => .error (.endOfInput blame)
  | t :: ts =>
    match t.symbol with
    | .unary .negate | .binary .subtract => do
      let e ← readOperand (some t) ts
      have := e.shorter
      let powers ← readLinks (· == .power) true e.rest
      have := powers.notLonger
      return ⟨.unary .negate (assemble e.value powers.value) t.position, powers.rest, by
        simp; omega⟩
    | _ => do
      let e ← readPrimary t ts
      let out := trailing e.value e.rest
      have := e.notLonger
      have := trailing_length e.value e.rest
      return ⟨out.1, out.2, by simp only [List.length_cons, out]; omega⟩
termination_by (ts.length, 0)

/-- Reads the rest of a primary that starts with the token `t`. -/
def readPrimary (t : Token) (ts : List Token) : Except ParseFault (ParsedMany Expr ts) :=
  match t.symbol with
  | .leftParen => do
    let e ← readChain (some t) ts
    have := e.shorter
    match h : e.rest with
    | [] => .error (endOf ts)
    | c :: rest =>
      if c.symbol = .rightParen then
        return ⟨e.value, rest, by simp [h] at this; omega⟩
      else .error (.unexpected c)
  | .leftBrace => do
    let es ← readDelimited .rightBrace ts
    return ⟨.list es.value t.position, es.rest, es.notLonger⟩
  | .function f => do
    let es ← readDelimited .rightParen ts
    return ⟨.call f es.value t.position, es.rest, es.notLonger⟩
  | _ =>
    match atom? t with
    | some e => .ok ⟨e, ts, Nat.le_refl _⟩
    | none => .error (.unexpected t)
termination_by (ts.length, 5)

/-- Reads the operators that satisfy `accept`, each with its operand. Only the first operator of a
chain is not named when its operand is missing. -/
def readLinks (accept : BinaryOp → Bool) (first : Bool) (ts : List Token) :
    Except ParseFault (ParsedMany (List Link) ts) :=
  match ts with
  | [] => .ok ⟨[], [], Nat.le_refl _⟩
  | t :: ts =>
    match t.symbol with
    | .binary op =>
      if accept op then do
        let e ← readOperand (if first then none else some t) ts
        have := e.shorter
        let more ← readLinks accept false e.rest
        have := more.notLonger
        return ⟨⟨op, t.position, e.value⟩ :: more.value, more.rest, by simp; omega⟩
      else .ok ⟨[], t :: ts, Nat.le_refl _⟩
    | _ => .ok ⟨[], t :: ts, Nat.le_refl _⟩
termination_by (ts.length, 1)

/-- Reads an expression. -/
def readChain (blame : Option Token) (ts : List Token) : Except ParseFault (Parsed Expr ts) := do
  let e ← readOperand blame ts
  have := e.shorter
  let links ← readLinks (fun _ => true) true e.rest
  have := links.notLonger
  return ⟨assemble e.value links.value, links.rest, by omega⟩
termination_by (ts.length, 2)

/-- Reads expressions with commas between them, up to and including the closing symbol. -/
def readItems (closer : Symbol) (blame : Option Token) (ts : List Token) :
    Except ParseFault (ParsedMany (List Expr) ts) := do
  let e ← readChain blame ts
  have := e.shorter
  match h : e.rest with
  | [] => .error (endOf ts)
  | t :: rest =>
    if t.symbol = closer then
      return ⟨[e.value], rest, by simp [h] at this; omega⟩
    else if t.symbol = .comma then do
      let more ← readItems closer (some t) rest
      have := more.notLonger
      return ⟨e.value :: more.value, more.rest, by simp [h] at *; omega⟩
    else .error (.unexpected t)
termination_by (ts.length, 3)
decreasing_by
  · exact Prod.Lex.right _ (by decide)
  · apply Prod.Lex.left
    simp [h] at this
    omega

/-- Reads what follows an opening symbol, up to and including the closing one. -/
def readDelimited (closer : Symbol) (ts : List Token) :
    Except ParseFault (ParsedMany (List Expr) ts) :=
  match ts with
  | [] => .error (.endOfInput none)
  | t :: ts =>
    if t.symbol = closer then .ok ⟨[], ts, by simp⟩
    else readItems closer none (t :: ts)
termination_by (ts.length, 4)

end

end Expr

end Handheld
