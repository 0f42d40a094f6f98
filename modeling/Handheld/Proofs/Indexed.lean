import Handheld.Proofs.Reading

/-!
# Parsing by index

A second parser, which goes through its tokens by index: it asks for the token at an index, hands on
the tokens from an index on, and reports how many tokens it took. It climbs by priority instead of
reading a chain first. Only its own checks keep an index inside of its list. Its recursion is
limited by a depth alone, which says how far calls may nest, the rounds of a loop counted as calls.
No function looks at the depth but to stop, so a run that never ends is too deep at every depth.
-/

namespace Handheld.Indexed

/-- How a run ends without a result. -/
inductive Halt
  /-- The tokens are refused. -/
  | refused (f : ParseFault)
  /-- An index lies outside of the list that it is used on. -/
  | outside

/-- A run of the parser; one that goes deeper than it may is `none`. -/
abbrev Run (α : Type) := ExceptT Halt Option α

/-- The run is at its depth and would have to go on. -/
def Run.tooDeep {α : Type} : Run α := (none : Option (Except Halt α))

/-- The run refuses its tokens. -/
def Run.refuse {α : Type} (f : ParseFault) : Run α := throw (.refused f)

section Access

variable {α : Type}

/-- The element at an index. -/
def elementAt (xs : List α) (i : Nat) : Run α :=
  match xs[i]? with
  | some x => pure x
  | none => throw .outside

/-- The list from an index on. -/
def tailFrom (xs : List α) (i : Nat) : Run (List α) :=
  if i ≤ xs.length then pure (xs.drop i) else throw .outside

/-- The list from one index up to another. -/
def slice (xs : List α) (i j : Nat) : Run (List α) :=
  if i ≤ j ∧ j ≤ xs.length then pure ((xs.take j).drop i) else throw .outside

/-- The list with another element at an index. -/
def replaceAt (xs : List α) (i : Nat) (x : α) : Run (List α) :=
  if i < xs.length then pure (xs.set i x) else throw .outside

/-- The element at an index, if the list goes that far. -/
def elementAt? (xs : List α) (i : Nat) : Run (Option α) :=
  if i < xs.length then do return some (← elementAt xs i) else return none

end Access

/-- Refuses tokens that end before an index. -/
def expectMore (ts : List Token) (i : Nat) : Run Unit :=
  if ts.length ≤ i then
    if 0 < ts.length then do Run.refuse (.endOfInput (some (← elementAt ts (ts.length - 1))))
    else Run.refuse (.endOfInput none)
  else return ()

/-- Refuses tokens that go on at an index. -/
def expectEnd (ts : List Token) (i : Nat) : Run Unit :=
  if i < ts.length then do Run.refuse (.unexpected (← elementAt ts i)) else return ()

/-- A binary operator at its place. -/
structure Operator where
  /-- The operator. -/
  op : BinaryOp
  /-- Where it stands. -/
  pos : Position

/-- The binary operator that a token is. -/
def Operator.of? (t : Token) : Option Operator :=
  match t.symbol with
  | .binary op => some ⟨op, t.position⟩
  | _ => none

/-- The operator that a token puts after its operand. -/
def trailingOp? (t : Token) : Option UnaryOp :=
  match t.symbol with
  | .unary op => if op.isTrailing then some op else none
  | _ => none

/-- The variable at an index, with its place. -/
def parseTarget (ts : List Token) (i : Nat) : Run (Target × Position) := do
  expectMore ts i
  let t ← elementAt ts i
  match t.symbol with
  | .var c => return (.var c, t.position)
  | .list n => return (.list n, t.position)
  | _ => Run.refuse (.badTarget t)

/-- The value of a variable. -/
def variableExpr : Target → Position → Expr
  | .var c, p => .var c p
  | .list n, p => .listVar n p

/-- An operand of one token `t`, with which the tokens start. -/
def parseLeaf (t : Token) (ts : List Token) : Run (Expr × Nat) :=
  match t.symbol with
  | .number _ x => return (.number (.ofReal x) t.position, 1)
  | .imaginaryUnit => return (.number .imaginaryUnit t.position, 1)
  | .pi => return (.number (.ofReal Double.pi) t.position, 1)
  | .euler => return (.number (.ofReal Double.euler) t.position, 1)
  | .string s => return (.string s t.position, 1)
  | .ans => return (.ans t.position, 1)
  | .var _ | .list _ => do
    let (target, pos) ← parseTarget ts 0
    return (variableExpr target pos, 1)
  | _ => Run.refuse (.unexpected t)

/-- Joins a tree with operators and the operands after them, from left to right. -/
def joinFrom (tree : Expr) : List Operator → List Expr → Run Expr
  | [], _ => return tree
  | o :: ops, nodes => do
    let right ← elementAt nodes 0
    joinFrom (.binary o.op tree right o.pos) ops (← tailFrom nodes 1)

/-- Joins operands with the operators between them, from left to right. -/
def join (ops : List Operator) (nodes : List Expr) : Run Expr := do
  let tree ← elementAt nodes 0
  joinFrom tree ops (← tailFrom nodes 1)

/-- Wraps an expression into the trailing operators from an index on. -/
def parseTrailing : Nat → List Token → Expr → Nat → Run (Expr × Nat)
  | 0, _, _, _ => Run.tooDeep
  | d + 1, ts, e, i => do
    match ← elementAt? ts i with
    | none => return (e, i)
    | some t =>
      match trailingOp? t with
      | none => return (e, i)
      | some op => parseTrailing d ts (.unary op e t.position) (i + 1)

/-- The priority that the operators after a sign have to exceed. -/
def negationPriority : Int := 60

mutual

/-- An expression, and how many tokens it takes. -/
def parseExpression : Nat → List Token → Run (Expr × Nat)
  | 0, _ => Run.tooDeep
  | d + 1, ts => do
    let (e, i) ← parseAtom d ts
    match (← elementAt? ts i).bind Operator.of? with
    | none => return (e, i)
    | some o =>
      let (e, n) ← parseBinary d e o (← tailFrom ts (i + 1)) (-1)
      return (e, i + n + 1)

/-- An operand, and how many tokens it takes. -/
def parseAtom : Nat → List Token → Run (Expr × Nat)
  | 0, _ => Run.tooDeep
  | d + 1, ts => do
    expectMore ts 0
    let t ← elementAt ts 0
    match t.symbol with
    | .unary .negate | .binary .subtract => do
      expectMore ts 1
      let (e, n) ← parseAtom d (← tailFrom ts 1)
      let (e, i) ← parsePowers d ts e (1 + n)
      return (.unary .negate e t.position, i)
    | _ => do
      let (e, i) ← parsePrimary d t ts
      parseTrailing d ts e i

/-- Applies the powers from an index on to an expression. -/
def parsePowers : Nat → List Token → Expr → Nat → Run (Expr × Nat)
  | 0, _, _, _ => Run.tooDeep
  | d + 1, ts, e, i => do
    match ← elementAt? ts i with
    | none => return (e, i)
    | some t =>
      if t.symbol = .binary .power then
        let (e, n) ← parseBinary d e ⟨.power, t.position⟩ (← tailFrom ts (i + 1)) negationPriority
        parsePowers d ts e (i + n + 1)
      else return (e, i)

/-- An operand without its trailing operators, which starts with the token `t`. -/
def parsePrimary : Nat → Token → List Token → Run (Expr × Nat)
  | 0, _, _ => Run.tooDeep
  | d + 1, t, ts =>
    match t.symbol with
    | .leftParen => do
      expectMore ts 1
      let (e, n) ← parseExpression d (← tailFrom ts 1)
      expectMore ts (1 + n)
      let c ← elementAt ts (1 + n)
      if c.symbol = .rightParen then return (e, 1 + n + 1) else Run.refuse (.unexpected c)
    | .leftBrace => do
      let (es, n) ← parseDelimited d .rightBrace (← tailFrom ts 1)
      return (.list es t.position, 1 + n)
    | .function f => do
      let (es, n) ← parseDelimited d .rightParen (← tailFrom ts 1)
      return (.call f es t.position, 1 + n)
    | _ => parseLeaf t ts

/-- Expressions with commas between them, up to and including the closing symbol, and how many
tokens they take. -/
def parseDelimited : Nat → Symbol → List Token → Run (List Expr × Nat)
  | 0, _, _ => Run.tooDeep
  | d + 1, closer, ts => do
    expectMore ts 0
    if (← elementAt ts 0).symbol = closer then return ([], 1) else parseItems d closer ts [] 0

/-- The expressions from an index on, after those that were read before. -/
def parseItems : Nat → Symbol → List Token → List Expr → Nat → Run (List Expr × Nat)
  | 0, _, _, _, _ => Run.tooDeep
  | d + 1, closer, ts, es, i => do
    let (e, n) ← parseExpression d (← tailFrom ts i)
    expectMore ts (i + n)
    let t ← elementAt ts (i + n)
    if t.symbol = closer then return (es ++ [e], i + n + 1)
    else if t.symbol = .comma then
      expectMore ts (i + n + 1)
      parseItems d closer ts (es ++ [e]) (i + n + 1)
    else Run.refuse (.unexpected t)

/-- What an operator and the tokens after it make of the expression before it, as far as operators
follow whose priority exceeds `bound`. -/
def parseBinary : Nat → Expr → Operator → List Token → Int → Run (Expr × Nat)
  | 0, _, _, _, _ => Run.tooDeep
  | d + 1, left, o, ts, bound => do
    expectMore ts 0
    let (right, i) ← parseAtom d ts
    climb d ts bound [o] [left, right] i

/-- Goes on from an index, where operators and operands were read and not joined yet. An operator
that does not bind tighter than the last one is added to them; a tighter one takes the last operand
for its own. -/
def climb : Nat → List Token → Int → List Operator → List Expr → Nat → Run (Expr × Nat)
  | 0, _, _, _, _, _ => Run.tooDeep
  | d + 1, ts, bound, ops, nodes, i => do
    match (← elementAt? ts i).bind Operator.of? with
    | none => return (← join ops nodes, i)
    | some o =>
      if o.op.priority ≤ bound then return (← join ops nodes, i)
      else
        let last ← elementAt ops (ops.length - 1)
        if o.op.priority ≤ last.op.priority then
          expectMore ts (i + 1)
          let (right, n) ← parseAtom d (← tailFrom ts (i + 1))
          climb d ts bound (ops ++ [o]) (nodes ++ [right]) (i + 1 + n)
        else
          expectMore ts (i + 1)
          let node ← elementAt nodes (nodes.length - 1)
          let (tree, n) ← parseBinary d node o (← tailFrom ts (i + 1)) last.op.priority
          climb d ts bound ops (← replaceAt nodes (nodes.length - 1) tree) (i + n + 1)

end

/-- Tokens that must form exactly one expression. -/
def parseWhole (d : Nat) (ts : List Token) : Run Expr := do
  expectMore ts 0
  let (e, i) ← parseExpression d ts
  expectEnd ts i
  return e

/-- The condition after a keyword. -/
def parseCondition (d : Nat) (ts : List Token) : Run Expr := do
  expectMore ts 1
  parseWhole d (← tailFrom ts 1)

/-- The arguments from an index on, after those that were read before. -/
def parseArgumentsFrom : Nat → List Token → List Expr → Nat → Run (List Expr)
  | 0, _, _, _ => Run.tooDeep
  | d + 1, ts, es, i => do
    if i < ts.length then
      let (e, n) ← parseExpression d (← tailFrom ts i)
      if i + n = ts.length then return es ++ [e]
      else
        let t ← elementAt ts (i + n)
        if t.symbol = .comma then
          expectMore ts (i + n + 1)
          parseArgumentsFrom d ts (es ++ [e]) (i + n + 1)
        else Run.refuse (.unexpected t)
    else return es

/-- Expressions with commas between them, up to the end. -/
def parseArguments (d : Nat) (ts : List Token) : Run (List Expr) := parseArgumentsFrom d ts [] 0

/-- The targets from an index on, after those that were read before. -/
def parseTargetsFrom : Nat → List Token → List Target → Nat → Run (List Target)
  | 0, _, _, _ => Run.tooDeep
  | d + 1, ts, targets, i => do
    let (target, _) ← parseTarget ts i
    if i + 1 = ts.length then return targets ++ [target]
    else
      let t ← elementAt ts (i + 1)
      if t.symbol = .comma then parseTargetsFrom d ts (targets ++ [target]) (i + 2)
      else Run.refuse (.unexpected t)

/-- A statement that reads a value for each of its targets. -/
def parsePrompt (d : Nat) (ts : List Token) : Run Statement := do
  let targets ← parseTargetsFrom d ts [] 1
  return ⟨.prompt targets, (← elementAt ts 0).position⟩

/-- The end of a statement that shows a text and reads a value for the target at an index. -/
def parseInputTarget (ts : List Token) (text : String) (pos : Position) (i : Nat) :
    Run Statement := do
  let (target, _) ← parseTarget ts i
  expectEnd ts (i + 1)
  return ⟨.input text target, pos⟩

/-- A statement that shows a text and reads a value; without a text a question mark is shown. -/
def parseInput (ts : List Token) : Run Statement := do
  let word ← elementAt ts 0
  match ← elementAt? ts 1 with
  | some ⟨.string s, _⟩ =>
    expectMore ts 2
    let c ← elementAt ts 2
    if c.symbol = .comma then parseInputTarget ts s word.position 3
    else Run.refuse (.unexpected c)
  | _ => parseInputTarget ts "?" word.position 1

/-- An expression, with an arrow and a target after it or not. -/
def parseStore (d : Nat) (ts : List Token) : Run Instruction := do
  let (e, i) ← parseExpression d ts
  if (← elementAt? ts i).any (·.symbol = .store) then
    let (target, _) ← parseTarget ts (i + 1)
    expectEnd ts (i + 2)
    return .expression e (some target)
  else
    expectEnd ts i
    return .expression e none

/-- The statement that the tokens form. -/
def parseStatement (d : Nat) (ts : List Token) : Run Statement := do
  let t ← elementAt ts 0
  match t.symbol with
  | .keyword .cond => return ⟨.cond (← parseCondition d ts), t.position⟩
  | .keyword .whileLoop => return ⟨.whileLoop (← parseCondition d ts), t.position⟩
  | .keyword .repeatLoop => return ⟨.repeatLoop (← parseCondition d ts), t.position⟩
  | .keyword .consequent => expectEnd ts 1; return ⟨.consequent, t.position⟩
  | .keyword .alternative => expectEnd ts 1; return ⟨.alternative, t.position⟩
  | .keyword .blockEnd => expectEnd ts 1; return ⟨.blockEnd, t.position⟩
  | .keyword .stop => expectEnd ts 1; return ⟨.stop, t.position⟩
  | .keyword .ret => expectEnd ts 1; return ⟨.ret, t.position⟩
  | .program name => expectEnd ts 1; return ⟨.call name, t.position⟩
  | .keyword .display => return ⟨.display (← parseArguments d (← tailFrom ts 1)), t.position⟩
  | .keyword .prompt => parsePrompt d ts
  | .keyword .input => parseInput ts
  | _ => return ⟨← parseStore d ts, t.position⟩

/-- Goes on at the index `i`, where a statement began at the index `start` and those before it were
read. -/
def parseFrom : Nat → List Token → List Statement → Nat → Nat → Run (List Statement)
  | 0, _, _, _, _ => Run.tooDeep
  | d + 1, ts, ss, start, i => do
    if ts.length < i then return ss
    else
      if (← elementAt? ts i).any (·.symbol ≠ .separator) then parseFrom d ts ss start (i + 1)
      else if start < i then
        let s ← parseStatement d (← slice ts start i)
        parseFrom d ts (ss ++ [s]) (i + 1) (i + 1)
      else parseFrom d ts ss (i + 1) (i + 1)

/-- The statements of a token list. -/
def parse (d : Nat) (ts : List Token) : Run (List Statement) := parseFrom d ts [] 0 0

/-- A run that may go deeper than `m` may make a call, in which it may go as deep as `m`. -/
theorem exists_add_one_of_lt {m d : Nat} (h : m < d) : ∃ d', d = d' + 1 ∧ m ≤ d' :=
  ⟨d - 1, by omega, by omega⟩

namespace Run

variable {α β γ δ : Type}

/-- The run ends: with a result that satisfies `Q`, or by refusing its tokens. -/
inductive Ends (Q : α → Prop) : Run α → Prop
  | returns {a : α} (h : Q a) : Ends Q (pure a)
  | refuses (f : ParseFault) : Ends Q (refuse f)

/-- The run ends as the computation does: with a related result, or with the same fault. -/
inductive Agrees (R : α → β → Prop) : Run α → Except ParseFault β → Prop
  | returns {a : α} {b : β} (h : R a b) : Agrees R (pure a) (.ok b)
  | refuses (f : ParseFault) : Agrees R (refuse f) (.error f)

/-- A run that ends can be continued by one that ends. -/
theorem Ends.bind {Q : α → Prop} {P : β → Prop} {r : Run α} {k : α → Run β} (h : r.Ends Q)
    (hk : ∀ a, Q a → (k a).Ends P) : (r >>= k).Ends P := by
  cases h with
  | returns h =>
    rw [pure_bind]
    exact hk _ h
  | refuses f => exact .refuses f

/-- Runs that agree with computations can be continued as these are. -/
theorem Agrees.bind {R : α → β → Prop} {S : γ → δ → Prop} {r : Run α} {x : Except ParseFault β}
    {k : α → Run γ} {k' : β → Except ParseFault δ} (h : r.Agrees R x)
    (hk : ∀ a b, R a b → x = .ok b → (k a).Agrees S (k' b)) : (r >>= k).Agrees S (x >>= k') := by
  cases h with
  | returns h =>
    rw [pure_bind]
    exact hk _ _ h rfl
  | refuses f => exact .refuses f

/-- The run can stop where the computation still makes something of its result. -/
theorem Agrees.map_right {R : α → β → Prop} {S : α → γ → Prop} {r : Run α}
    {x : Except ParseFault β} {k : β → Except ParseFault γ} (h : r.Agrees R x)
    (hk : ∀ a b, R a b → x = .ok b → ∃ c, k b = .ok c ∧ S a c) : r.Agrees S (x >>= k) := by
  cases h with
  | returns h =>
    obtain ⟨c, hc, hS⟩ := hk _ _ h rfl
    change Agrees S _ (k _)
    rw [hc]
    exact .returns hS
  | refuses f => exact .refuses f

/-- A run agrees with a computation if it does with what is made of its result. -/
theorem Agrees.of_map {R : α → γ → Prop} {g : β → γ} {r : Run α} {x : Except ParseFault β}
    (h : r.Agrees R (x.map g)) : r.Agrees (fun a b => R a (g b)) x := by
  cases x with
  | error f =>
    cases h
    exact .refuses f
  | ok b =>
    cases h with
    | returns h => exact .returns h

/-- A run that agrees with a computation ends. -/
theorem Agrees.ends {R : α → β → Prop} {Q : α → Prop} {r : Run α} {x : Except ParseFault β}
    (h : r.Agrees R x) (hQ : ∀ a b, R a b → Q a) : r.Ends Q := by
  cases h with
  | returns h => exact .returns (hQ _ _ h)
  | refuses f => exact .refuses f

end Run

section Access

variable {α : Type} {xs rest : List α} {x : α} {i : Nat}

/-- An index inside of a list gives the element. -/
theorem elementAt_eq (h : xs[i]? = some x) : elementAt xs i = pure x := by
  rw [elementAt, h]

/-- A guarded index is never outside. -/
@[simp] theorem elementAt?_eq (xs : List α) (i : Nat) : elementAt? xs i = pure xs[i]? := by
  unfold elementAt?
  split
  · next h => rw [elementAt_eq (List.getElem?_eq_getElem h), pure_bind, List.getElem?_eq_getElem h]
  · next h => rw [List.getElem?_eq_none (Nat.le_of_not_lt h)]

/-- An index up to the end of a list gives its tail. -/
theorem tailFrom_eq (h : i ≤ xs.length) : tailFrom xs i = pure (xs.drop i) := if_pos h

/-- Indices in order and up to the end give a slice. -/
theorem slice_eq {j : Nat} (hij : i ≤ j) (hj : j ≤ xs.length) :
    slice xs i j = pure ((xs.take j).drop i) := if_pos ⟨hij, hj⟩

/-- The last index is inside of a list. -/
theorem elementAt_last (xs : List α) (x : α) :
    elementAt (xs ++ [x]) ((xs ++ [x]).length - 1) = pure x := elementAt_eq (by simp)

/-- The last element of a list can be replaced. -/
theorem replaceAt_last (xs : List α) (x y : α) :
    replaceAt (xs ++ [x]) ((xs ++ [x]).length - 1) y = pure (xs ++ [y]) := by
  simp [replaceAt]

/-- What the tail from an index on starts with stands at the index. -/
theorem getElem?_of_drop (h : xs.drop i = x :: rest) : xs[i]? = some x := by
  rw [← List.head?_drop, h, List.head?_cons]

/-- The tail from the next index on lacks the element at the index. -/
theorem drop_add_one_of_drop (h : xs.drop i = x :: rest) : xs.drop (i + 1) = rest := by
  rw [← List.tail_drop, h, List.tail_cons]

/-- An index with a tail is inside of the list. -/
theorem lt_length_of_drop (h : xs.drop i = x :: rest) : i < xs.length :=
  (List.getElem?_eq_some_iff.mp (getElem?_of_drop h)).1

/-- The length of a list, by what stands before, at and behind an index. -/
theorem length_of_drop (h : xs.drop i = x :: rest) : xs.length = i + 1 + rest.length := by
  have hlength := congrArg List.length h
  rw [List.length_drop, List.length_cons] at hlength
  omega

/-- The index behind an element gives what follows it. -/
theorem tailFrom_of_drop (h : xs.drop i = x :: rest) : tailFrom xs (i + 1) = pure rest := by
  rw [tailFrom_eq (lt_length_of_drop h), drop_add_one_of_drop h]

end Access

section Expect

variable {ts : List Token} {i : Nat}

/-- Tokens that go on pass. -/
theorem expectMore_of_lt (h : i < ts.length) : expectMore ts i = pure () :=
  if_neg (Nat.not_le.mpr h)

/-- The last token is named where the tokens end too early. -/
theorem expectMore_of_le (h : ts.length ≤ i) :
    expectMore ts i = Run.refuse (.endOfInput ts.getLast?) := by
  rw [expectMore, if_pos h]
  cases ts with
  | nil => rfl
  | cons t ts =>
    obtain ⟨u, hu⟩ : ∃ u, (t :: ts)[(t :: ts).length - 1]? = some u :=
      ⟨_, List.getElem?_eq_getElem (by simp)⟩
    rw [if_pos (by simp), elementAt_eq hu, pure_bind, List.getLast?_eq_getElem?, hu]

private theorem getLast?_of_drop {us : List Token} (hdrop : ts.drop i = us) (hne : us ≠ []) :
    us.getLast? = ts.getLast? := by
  have hlength := List.length_pos_iff.mpr hne
  rw [← hdrop, List.length_drop] at hlength
  rw [← hdrop, List.getLast?_drop, if_neg (by omega)]

/-- Tokens that end behind an index end like the tokens from that index on. -/
theorem expectMore_of_drop {us : List Token} {j : Nat} (hdrop : ts.drop i = us) (hne : us ≠ [])
    (hend : ts.drop j = []) : expectMore ts j = Run.refuse (Expr.endOf us) := by
  rw [expectMore_of_le (List.drop_eq_nil_iff.mp hend), Expr.endOf, getLast?_of_drop hdrop hne]

/-- Without tokens none can be named. -/
theorem expectMore_nil (i : Nat) : expectMore [] i = Run.refuse (.endOfInput none) :=
  expectMore_of_le (Nat.zero_le i)

/-- A run that expects more tokens behind an index agrees with a computation that refuses to go on
without. -/
theorem Run.Agrees.expectMore {α β : Type} {R : α → β → Prop} {r : Run α}
    {x : Except ParseFault β} {t : Token} {rest : List Token} (hdrop : ts.drop i = t :: rest)
    (hnil : rest = [] → x = .error (.endOfInput (some t))) (hcons : rest ≠ [] → r.Agrees R x) :
    (Indexed.expectMore ts (i + 1) >>= fun _ => r).Agrees R x := by
  have hlength := length_of_drop hdrop
  by_cases hrest : rest = []
  · rw [hnil hrest, expectMore_of_le (by simp [hlength, hrest]),
      ← getLast?_of_drop hdrop (List.cons_ne_nil t rest), hrest]
    exact .refuses _
  · have hpos := List.length_pos_iff.mpr hrest
    rw [expectMore_of_lt (by omega), pure_bind]
    exact hcons hrest

end Expect

end Handheld.Indexed
