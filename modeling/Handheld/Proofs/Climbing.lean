import Handheld.Proofs.Indexed

/-!
# Climbing by priority agrees with reading chains

The parser by index and the readers end alike on every token list, given depth enough: with the same
tree after the same tokens, or with the same fault. A climb that has joined some operators and waits
with the last of them is the assembly of a chain with one operator waiting; a tighter operator
starts a climb of its own, which takes as many links as bind tighter than the waiting operator.
-/

namespace Handheld

namespace Expr

section Links

variable {accept tight loose : BinaryOp → Bool} {first : Bool} {t : Token} {ts rest : List Token}
  {op : BinaryOp} {links : List Link} {blame : Option Token}

/-- The links at the front of the tokens, and the tokens that are left. -/
def linksOf (accept : BinaryOp → Bool) (first : Bool) (ts : List Token) :
    Except ParseFault (List Link × List Token) :=
  (readLinks accept first ts).map fun r => (r.value, r.rest)

/-- An operand with the links after it, and the tokens that are left. -/
def operandLinks (blame : Option Token) (accept : BinaryOp → Bool) (ts : List Token) :
    Except ParseFault (Expr × List Link × List Token) := do
  let e ← readOperand blame ts
  let (links, rest) ← linksOf accept false e.rest
  return (e.value, links, rest)

private theorem reads_of_linksOf (h : linksOf accept first ts = .ok (links, rest)) :
    ParsedMany.Reads (readLinks accept first ts) links rest := by
  unfold linksOf at h
  cases hread : readLinks accept first ts with
  | error f => rw [hread] at h; cases h
  | ok r =>
    rw [hread] at h
    cases h
    exact ⟨r, rfl, rfl, rfl⟩

private theorem exists_of_not_stops (h : ¬ Stops accept ts) :
    ∃ t us op, ts = t :: us ∧ t.symbol = .binary op ∧ accept op = true := by
  cases ts with
  | nil => exact absurd (by simp [Stops]) h
  | cons t us =>
    obtain ⟨op, ht, hop⟩ : ∃ op, t.symbol = .binary op ∧ accept op = true := by
      simpa [Stops] using h
    exact ⟨t, us, op, rfl, ht, hop⟩

/-- There are no links where no operator comes that is admitted. -/
theorem linksOf_of_stops (h : Stops accept ts) : linksOf accept first ts = .ok ([], ts) := by
  have hreads : ParsedMany.Reads (readLinks accept first ts) [] ts :=
    (reads_links_stop h).mpr ⟨rfl, rfl⟩
  obtain ⟨r, hread, hvalue, hrest⟩ := hreads
  rw [linksOf, hread, Except.map, hvalue, hrest]

/-- An operator that is admitted starts a link, whose operand comes with the links after it. -/
theorem linksOf_cons (ht : t.symbol = .binary op) (hop : accept op = true) :
    linksOf accept first (t :: ts) = do
      let (e, links, rest) ← operandLinks (if first then none else some t) accept ts
      return (⟨op, t.position, e⟩ :: links, rest) := by
  unfold operandLinks linksOf
  rw [readLinks]
  simp only [ht, hop, if_true]
  cases readOperand (if first then none else some t) ts with
  | error f => rfl
  | ok e =>
    simp only [bind, Except.bind]
    cases readLinks accept false e.rest <;> rfl

/-- Links are read as the tight ones at the front and the others after them. -/
theorem linksOf_split (h : ∀ op, tight op = true → loose op = true) (ts : List Token) :
    linksOf loose false ts = do
      let (links, mid) ← linksOf tight false ts
      let (more, rest) ← linksOf loose false mid
      return (links ++ more, rest) := by
  by_cases hts : Stops tight ts
  · rw [linksOf_of_stops hts]
    simp only [bind, Except.bind]
    cases linksOf loose false ts <;> rfl
  · obtain ⟨t, us, op, hcons, ht, hop⟩ := exists_of_not_stops hts
    rw [hcons, linksOf_cons ht hop, linksOf_cons ht (h op hop)]
    unfold operandLinks
    cases readOperand (if false = true then none else some t) us with
    | error f => rfl
    | ok e =>
      have hshorter : e.rest.length < ts.length := by
        rw [hcons]
        exact Nat.lt_succ_of_lt e.shorter
      simp only [bind, Except.bind]
      rw [linksOf_split h e.rest]
      cases linksOf tight false e.rest with
      | error f => rfl
      | ok p =>
        simp only [bind, Except.bind, pure, Except.pure]
        cases linksOf loose false p.2 <;> rfl
termination_by ts.length

/-- Links are accepted as long as they follow. -/
theorem of_linksOf (h : linksOf accept first ts = .ok (links, rest)) :
    (∀ l ∈ links, accept l.op = true) ∧ Stops accept rest := by
  have hpowers : false = true → Stops (· == .power) ts := by simp
  obtain ⟨-, -, -, haccept, hstop⟩ := tree_of_reads_links hpowers (reads_of_linksOf h)
  exact ⟨haccept, hstop⟩

/-- The first link begins with the first token. -/
theorem linksOf_head (h : linksOf accept first ts = .ok (links, rest)) (hstop : Stops tight ts) :
    ∀ l ∈ links.head?, tight l.op = false := by
  by_cases hts : Stops accept ts
  · rw [linksOf_of_stops hts] at h
    cases h
    simp
  · obtain ⟨t, us, op, rfl, ht, hop⟩ := exists_of_not_stops hts
    rw [linksOf_cons ht hop] at h
    obtain ⟨_, -, h⟩ := Except.bind_ok h
    cases h
    intro l hl
    cases hl
    exact hstop t rfl op ht

/-- Which token is to blame matters only where there is none. -/
theorem readOperand_blame (h : ts ≠ []) (blame : Option Token) :
    readOperand blame ts = readOperand none ts := by
  cases ts with
  | nil => exact absurd rfl h
  | cons t ts => rw [readOperand, readOperand]

/-- Where there are tokens, it does not matter what is blamed for their absence. -/
theorem readChain_blame (h : ts ≠ []) (blame : Option Token) :
    readChain blame ts = readChain none ts := by
  rw [readChain, readChain, readOperand_blame h]

private theorem operandLinks_nil : operandLinks blame accept [] = .error (.endOfInput blame) := by
  rw [operandLinks, readOperand]
  rfl

private theorem operandLinks_blame (h : ts ≠ []) (blame : Option Token) :
    operandLinks blame accept ts = operandLinks none accept ts := by
  rw [operandLinks, operandLinks, readOperand_blame h]

/-- An operand with all links is the operand with the tight ones, followed by the others. -/
theorem operandLinks_split (h : ∀ op, tight op = true → loose op = true) :
    operandLinks blame loose ts = do
      let (e, links, mid) ← operandLinks blame tight ts
      let (more, rest) ← linksOf loose false mid
      return (e, links ++ more, rest) := by
  unfold operandLinks
  simp only [bind_assoc, pure_bind]
  refine bind_congr fun e => ?_
  rw [linksOf_split h]
  simp only [bind_assoc, pure_bind]

/-- The links after an operand are admitted, and go as far as they can. -/
theorem of_operandLinks {e : Expr} (h : operandLinks blame accept ts = .ok (e, links, rest)) :
    (∀ l ∈ links, accept l.op = true) ∧ Stops accept rest := by
  obtain ⟨r, -, h⟩ := Except.bind_ok h
  obtain ⟨_, hlinks, h⟩ := Except.bind_ok h
  cases h
  exact of_linksOf hlinks

end Links

/-- Links that bind tighter than the waiting operator go to its operand, before those that do
not. -/
theorem assembleFrom_tight {w : Pending} {links more : List Link}
    (hlinks : ∀ l ∈ links, w.op.priority < l.op.priority)
    (hmore : ∀ l ∈ more.head?, l.op.priority ≤ w.op.priority) (e : Expr) :
    assembleFrom [w] e (links ++ more) = assembleFrom [w] (assemble e links) more := by
  have htree : ChainTree e links (assemble e links) := assemble_eq_iff.mp rfl
  refine htree.assembleFrom_append (fun k hk v hv => ?_) fun r hr k hk => ?_
  · rw [List.mem_singleton.mp hv]
    exact hlinks k hk
  · exact Nat.le_of_lt (Nat.lt_of_le_of_lt (hmore r hr) (hlinks k hk))

end Expr

namespace Indexed

open Handheld.Expr

/-- From `ts` something was taken: `value`, with as many tokens as reported, so that `rest` is
left. -/
structure Took {α : Type} (ts : List Token) (a : α × Nat) (value : α) (rest : List Token) :
    Prop where
  value_eq : a.1 = value
  pos : 1 ≤ a.2
  le : a.2 ≤ ts.length
  drop_eq : ts.drop a.2 = rest

/-- What was taken behind an index, counted from the front. -/
theorem Took.of_drop {α : Type} {ts us rest : List Token} {i n : Nat} {x value : α}
    (h : Took us (x, n) value rest) (hdrop : ts.drop i = us) (hi : i ≤ ts.length) :
    1 ≤ i + n ∧ i + n ≤ ts.length ∧ ts.drop (i + n) = rest := by
  have hpos : 1 ≤ n := h.pos
  have hle : n ≤ us.length := h.le
  rw [← hdrop, List.length_drop] at hle
  refine ⟨by omega, by omega, ?_⟩
  rw [← List.drop_drop, hdrop]
  exact h.drop_eq

/-- The first operator and operand join the tree. -/
theorem joinFrom_cons (tree : Expr) (o : Operator) (ops : List Operator) (x : Expr)
    (nodes : List Expr) :
    joinFrom tree (o :: ops) (x :: nodes) = joinFrom (.binary o.op tree x o.pos) ops nodes := by
  rw [joinFrom, elementAt_eq rfl, pure_bind, tailFrom_of_drop (i := 0) rfl, pure_bind]

/-- Joining starts from the first operand. -/
theorem join_cons (ops : List Operator) (x : Expr) (nodes : List Expr) :
    join ops (x :: nodes) = joinFrom x ops nodes := by
  rw [join, elementAt_eq rfl, pure_bind, tailFrom_of_drop (i := 0) rfl, pure_bind]

/-- The last operator and operand join all that comes before. -/
private theorem joinFrom_append (tree : Expr) {ops : List Operator} {nodes : List Expr}
    (h : nodes.length = ops.length) (o : Operator) (x : Expr) :
    joinFrom tree (ops ++ [o]) (nodes ++ [x]) = do
      let left ← joinFrom tree ops nodes
      return .binary o.op left x o.pos := by
  induction ops generalizing tree nodes with
  | nil =>
    rw [List.length_nil, List.length_eq_zero_iff] at h
    rw [h]
    rfl
  | cons o' ops ih =>
    cases nodes with
    | nil => cases h
    | cons y nodes =>
      simp only [List.cons_append, joinFrom_cons]
      exact ih _ (Nat.succ.inj h)

/-- One more operator is applied to all that was joined before. -/
theorem join_append {ops : List Operator} {nodes : List Expr} {left : Expr}
    (hlength : nodes.length = ops.length + 1) (h : join ops nodes = pure left) (o : Operator)
    (x : Expr) : join (ops ++ [o]) (nodes ++ [x]) = pure (.binary o.op left x o.pos) := by
  cases nodes with
  | nil => cases hlength
  | cons y nodes =>
    rw [join_cons] at h
    rw [List.cons_append, join_cons, joinFrom_append y (Nat.succ.inj hlength), h, pure_bind]

/-- Where links stop, no operator that is admitted stands at the index. -/
private theorem operator?_of_stops {accept : BinaryOp → Bool} {ts : List Token} {i : Nat}
    (h : Stops accept (ts.drop i)) :
    ∀ o ∈ ts[i]?.bind Operator.of?, accept o.op = false := by
  intro o ho
  obtain ⟨t, ht, ho⟩ := Option.bind_eq_some_iff.mp ho
  rw [← List.head?_drop] at ht
  unfold Operator.of? at ho
  split at ho
  · next op hop =>
    cases ho
    exact h t ht op hop
  · cases ho

private theorem operator?_of_drop {ts rest : List Token} {i : Nat} {t : Token} {op : BinaryOp}
    (hdrop : ts.drop i = t :: rest) (ht : t.symbol = .binary op) :
    ts[i]?.bind Operator.of? = some ⟨op, t.position⟩ := by
  rw [getElem?_of_drop hdrop, Option.bind_some, Operator.of?, ht]

private theorem trailingOp?_of_untrailed {t : Token} {ts : List Token} (h : Untrailed ts)
    (ht : t ∈ ts.head?) : trailingOp? t = none := by
  unfold trailingOp?
  split
  · next op hop => rw [h t ht op hop, if_neg Bool.false_ne_true]
  · rfl

/-- Trailing operators are taken as long as they follow. -/
theorem parseTrailing_eq {d : Nat} {ts : List Token} {i : Nat} (hi : i ≤ ts.length)
    (hd : ts.length - i < d) (e : Expr) :
    ∃ n, parseTrailing d ts e i = pure ((trailing e (ts.drop i)).1, n) ∧ i ≤ n ∧ n ≤ ts.length ∧
      ts.drop n = (trailing e (ts.drop i)).2 := by
  induction d generalizing e i with
  | zero => cases hd
  | succ d ih =>
    rw [parseTrailing, elementAt?_eq, pure_bind]
    by_cases hend : Untrailed (ts.drop i)
    · have htrailing : trailing e (ts.drop i) = (e, ts.drop i) := trailing_append .nil hend
      rw [htrailing]
      refine ⟨i, ?_, Nat.le_refl _, hi, rfl⟩
      cases hget : ts[i]? with
      | none => rfl
      | some t => simp only [trailingOp?_of_untrailed hend (List.head?_drop.trans hget)]
    · cases hdrop : ts.drop i with
      | nil => exact absurd (by simp [Untrailed, hdrop]) hend
      | cons t rest =>
        obtain ⟨op, ht, hop⟩ : ∃ op, t.symbol = .unary op ∧ op.isTrailing = true := by
          simpa [Untrailed, hdrop] using hend
        have hlt := lt_length_of_drop hdrop
        obtain ⟨n, hn, hin, hle, hrest⟩ := ih hlt (by omega) (.unary op e t.position)
        rw [drop_add_one_of_drop hdrop] at hn hrest
        rw [getElem?_of_drop hdrop, trailing]
        simp only [trailingOp?, ht, hop, if_true]
        exact ⟨n, hn, by omega, hle, hrest⟩

/-- Without a power the loop over powers is left at once. -/
private theorem parsePowers_of_stops {ts : List Token} {i d : Nat}
    (h : Stops (· == .power) (ts.drop i))
    (hd : 0 < d) (e : Expr) : parsePowers d ts e i = pure (e, i) := by
  obtain ⟨d, rfl, -⟩ := exists_add_one_of_lt hd
  rw [parsePowers, elementAt?_eq, pure_bind]
  cases hget : ts[i]? with
  | none => rfl
  | some t =>
    refine if_neg fun ht => ?_
    have hpower := h t (List.head?_drop.trans hget) _ ht
    cases hpower

/-- The operators whose priority exceeds a bound. -/
def exceeds (bound : Int) (op : BinaryOp) : Bool := bound < op.priority

/-- Without an operator above the bound the climb joins what it has. -/
private theorem climb_of_stops {ts : List Token} {i : Nat} {bound : Int}
    (h : Stops (exceeds bound) (ts.drop i)) (d : Nat) (ops : List Operator) (nodes : List Expr) :
    climb (d + 1) ts bound ops nodes i = do return (← join ops nodes, i) := by
  rw [climb, elementAt?_eq, pure_bind]
  cases ho : ts[i]?.bind Operator.of? with
  | none => rfl
  | some o =>
    have hle := operator?_of_stops h o ho
    refine if_pos ?_
    simpa [exceeds] using hle

/-- Only powers exceed a sign. -/
private theorem beq_power_eq_exceeds :
    (fun op : BinaryOp => op == .power) = exceeds negationPriority := by
  funext op
  cases op <;> rfl

private theorem true_eq_exceeds : (fun _ : BinaryOp => true) = exceeds (-1) := by
  funext op
  cases op <;> rfl

/-- The links of an inner climb bind tighter than the waiting operator, and what follows them does
not. -/
theorem assembleFrom_operandLinks {w : Pending} {l : Link} {ts mid rest : List Token}
    {links more : List Link} {z : Expr} {accept : BinaryOp → Bool} {first : Bool}
    {blame : Option Token} (hl : w.op.priority < l.op.priority)
    (hlinks : operandLinks blame (exceeds w.op.priority) ts = .ok (z, links, mid))
    (hmore : linksOf accept first mid = .ok (more, rest)) (x : Expr) :
    assembleFrom [w] x (l :: (links ++ more)) =
      assembleFrom [w] (assemble x (l :: links)) more := by
  obtain ⟨htight, hend⟩ := of_operandLinks hlinks
  rw [← List.cons_append, assembleFrom_tight]
  · intro k hk
    rcases List.mem_cons.mp hk with rfl | hk
    · exact hl
    · simpa [exceeds] using htight k hk
  · intro k hk
    simpa [exceeds] using linksOf_head hmore hend k hk

private theorem Run.Agrees.of_linksOf {α : Type} {R : α → List Link × List Token → Prop} {r : Run α}
    {accept : BinaryOp → Bool} {first : Bool} {ts : List Token}
    (h : r.Agrees R (linksOf accept first ts)) :
    r.Agrees (fun a p => R a (p.value, p.rest)) (readLinks accept first ts) := h.of_map

/-- An operand without a sign is a primary with its trailing operators. -/
private theorem parseAtom_cons {t : Token} {ts : List Token} (ht : ¬ t.IsSign) (d : Nat) :
    parseAtom (d + 1) (t :: ts) = (do
      let (e, i) ← parsePrimary d t (t :: ts)
      parseTrailing d (t :: ts) e i) := by
  rw [parseAtom, expectMore_of_lt (by simp), pure_bind, elementAt_eq rfl, pure_bind]
  split
  · next hsign => exact absurd (.inl hsign) ht
  · next hsign => exact absurd (.inr hsign) ht
  · rfl

private theorem parseLeaf_of_leaf {t : Token} {e : Expr} (h : Leaf t e) (ts : List Token) :
    parseLeaf t (t :: ts) = pure (e, 1) := by
  rw [parseLeaf]
  cases h with
  | var c p => rw [parseTarget, expectMore_of_lt (by simp), pure_bind, elementAt_eq rfl]; rfl
  | list n p => rw [parseTarget, expectMore_of_lt (by simp), pure_bind, elementAt_eq rfl]; rfl
  | _ => rfl

private theorem parseLeaf_of_not_leaf {t : Token} (h : atom? t = none) (ts : List Token) :
    parseLeaf t ts = Run.refuse (.unexpected t) := by
  rw [parseLeaf]
  obtain ⟨symbol, p⟩ := t
  cases symbol <;> first | rfl | exact absurd h (Option.some_ne_none _)

private theorem parsePrimary_eq_parseLeaf {t : Token} (hparen : t.symbol ≠ .leftParen)
    (hbrace : t.symbol ≠ .leftBrace) (hfunction : ∀ f, t.symbol ≠ .function f) (d : Nat)
    (ts : List Token) : parsePrimary (d + 1) t ts = parseLeaf t ts := by
  rw [parsePrimary]
  split
  · next h => exact absurd h hparen
  · next h => exact absurd h hbrace
  · next f h => exact absurd h (hfunction f)
  · rfl

/-- On the tokens, the parser agrees with the readers, at any depth that is large enough for them.
What follows an operator is an operand with the links whose operators exceed the bound; the operator
itself exceeds it, as in all calls. At most five calls lead from an expression to one inside of it,
on a shorter list: its operand, that without trailing operators, delimited expressions, the loop
over them, the expression. -/
structure Agreement (ts : List Token) : Prop where
  atom {d : Nat} (hd : 5 * ts.length < d) :
    (parseAtom d ts).Agrees (fun a r => Took ts a r.value r.rest) (readOperand none ts)
  expression {d : Nat} (hd : 5 * ts.length + 1 < d) :
    (parseExpression d ts).Agrees (fun a r => Took ts a r.value r.rest) (readChain none ts)
  binary {d : Nat} (hd : 5 * ts.length + 1 < d) (left : Expr) (o : Operator) {bound : Int}
    (hbound : bound < o.op.priority) :
    (parseBinary d left o ts bound).Agrees
      (fun a p => Took ts a (assemble left (⟨o.op, o.pos, p.1⟩ :: p.2.1)) p.2.2)
      (operandLinks none (exceeds bound) ts)
  delimited {d : Nat} (hd : 5 * ts.length + 3 < d) (closer : Symbol) :
    (parseDelimited d closer ts).Agrees (fun a r => Took ts a r.value r.rest)
      (readDelimited closer ts)

/-- A climb has come to the index `i` with operators and operands that join to `left`, and with an
operator `o` above its bound that waits for its right operand. -/
structure Waits (ts : List Token) (bound : Int) (os : List Operator) (o : Operator) (ns : List Expr)
    (left : Expr) (i : Nat) : Prop where
  /-- There is one operand more than there are operators. -/
  nodes : ns.length = os.length + 1
  /-- What they join to. -/
  joined : join os ns = pure left
  /-- The operator that waits exceeds the bound. -/
  above : bound < o.op.priority
  /-- At least one token was taken. -/
  pos : 1 ≤ i
  /-- No more tokens were taken than there are. -/
  le : i ≤ ts.length

/-- At the depth `d`, a climb that waits with the operator `o` and the operand `x` takes the links
that exceed its bound, and makes of them what their assembly does with `o` waiting. -/
def ClimbAgrees (ts : List Token) (bound : Int) (d : Nat) : Prop :=
  ∀ ⦃os : List Operator⦄ ⦃o : Operator⦄ ⦃ns : List Expr⦄ ⦃left : Expr⦄ ⦃i : Nat⦄,
    Waits ts bound os o ns left i → 5 * (ts.length - i) < d → ∀ x : Expr,
      (climb d ts bound (os ++ [o]) (ns ++ [x]) i).Agrees
        (fun a p => Took ts a (assembleFrom [⟨left, o.op, o.pos⟩] x p.1) p.2)
        (linksOf (exceeds bound) false (ts.drop i))

section Step

-- The agreement on shorter lists is enough. Where a function hands on all of its tokens, the lemma
-- on the function that gets them stands before it.
variable {ts : List Token} {d : Nat} (ih : ∀ us, us.length < ts.length → Agreement us)

include ih

section Climb

variable {bound : Int} {os : List Operator} {o : Operator} {ns : List Expr} {x left : Expr} {i : Nat}
  {t : Token} {rest : List Token} {op : BinaryOp}

/-- An operator that does not bind tighter than `o` lets that take `x` into what is joined already,
and waits in its place. -/
private theorem agrees_climb_looser (climbs : ClimbAgrees ts bound d)
    (hwaits : Waits ts bound os o ns left i) (hdrop : ts.drop i = t :: rest)
    (hbound : bound < op.priority) (hpriority : op.priority ≤ o.op.priority)
    (hd : 5 * (ts.length - i) < d + 1) :
    Run.Agrees (fun a p => Took ts a (assembleFrom [⟨left, o.op, o.pos⟩] x p.1) p.2)
      (do
        expectMore ts (i + 1)
        let (right, n) ← parseAtom d (← tailFrom ts (i + 1))
        climb d ts bound (os ++ [o] ++ [⟨op, t.position⟩]) (ns ++ [x] ++ [right]) (i + 1 + n))
      (do
        let (e, links, rest) ← operandLinks (some t) (exceeds bound) rest
        return (⟨op, t.position, e⟩ :: links, rest)) := by
  have hlt := lt_length_of_drop hdrop
  have hrest := drop_add_one_of_drop hdrop
  have hlength := length_of_drop hdrop
  refine .expectMore hdrop (fun hnil => ?_) fun hne => ?_
  · rw [hnil, operandLinks_nil]
    rfl
  rw [tailFrom_of_drop hdrop, pure_bind, operandLinks, bind_assoc]
  simp only [readOperand_blame hne]
  refine ((ih rest (by omega)).atom (by omega)).bind ?_
  rintro ⟨y, n⟩ r hr -
  obtain rfl : y = r.value := hr.value_eq
  obtain ⟨hpos, hle, hrest'⟩ := hr.of_drop hrest hlt
  have hwaits' : Waits ts bound (os ++ [o]) ⟨op, t.position⟩ (ns ++ [x])
      (.binary o.op left x o.pos) (i + 1 + n) :=
    ⟨by simp [hwaits.nodes], join_append hwaits.nodes hwaits.joined o x, hbound, hpos, hle⟩
  have hclimb := climbs hwaits' (by omega) r.value
  rw [hrest'] at hclimb
  simp only [bind_assoc, pure_bind]
  refine hclimb.map_right ?_
  rintro a ⟨links, rest'⟩ ha -
  refine ⟨_, rfl, ?_⟩
  rwa [assembleFrom, reduce, if_pos hpriority]

/-- A tighter operator takes `x` with all links that exceed `o`, which waits on with the result. -/
private theorem agrees_climb_tighter (climbs : ClimbAgrees ts bound d)
    (hwaits : Waits ts bound os o ns left i) (hdrop : ts.drop i = t :: rest)
    (hpriority : o.op.priority < op.priority) (hd : 5 * (ts.length - i) < d + 1) :
    Run.Agrees (fun a p => Took ts a (assembleFrom [⟨left, o.op, o.pos⟩] x p.1) p.2)
      (do
        expectMore ts (i + 1)
        let node ← elementAt (ns ++ [x]) ((ns ++ [x]).length - 1)
        let (tree, n) ← parseBinary d node ⟨op, t.position⟩ (← tailFrom ts (i + 1)) o.op.priority
        climb d ts bound (os ++ [o]) (← replaceAt (ns ++ [x]) ((ns ++ [x]).length - 1) tree)
          (i + n + 1))
      (do
        let (e, links, rest) ← operandLinks (some t) (exceeds bound) rest
        return (⟨op, t.position, e⟩ :: links, rest)) := by
  have hlt := lt_length_of_drop hdrop
  have hrest := drop_add_one_of_drop hdrop
  have hlength := length_of_drop hdrop
  have habove := hwaits.above
  refine .expectMore hdrop (fun hnil => ?_) fun hne => ?_
  · rw [hnil, operandLinks_nil]
    rfl
  have htight : ∀ op', exceeds o.op.priority op' = true → exceeds bound op' = true := by
    simp only [exceeds, decide_eq_true_eq]
    omega
  rw [elementAt_last, pure_bind, tailFrom_of_drop hdrop, pure_bind, operandLinks_split htight]
  simp only [bind_assoc, pure_bind, operandLinks_blame hne]
  refine ((ih rest (by omega)).binary (by omega) x ⟨op, t.position⟩
    (by simpa using hpriority)).bind ?_
  rintro ⟨y, n⟩ ⟨z, links, mid⟩ hr hread
  obtain rfl := hr.value_eq
  obtain ⟨hpos, hle, hrest'⟩ := hr.of_drop hrest hlt
  have hwaits' : Waits ts bound os o ns left (i + 1 + n) :=
    ⟨hwaits.nodes, hwaits.joined, habove, hpos, hle⟩
  have hclimb := climbs hwaits' (by omega) (assemble x (⟨op, t.position, z⟩ :: links))
  rw [hrest'] at hclimb
  simp only [replaceAt_last, pure_bind, Nat.add_right_comm i n 1]
  refine hclimb.map_right ?_
  rintro a ⟨more, rest'⟩ ha hmore
  refine ⟨_, rfl, ?_⟩
  rwa [assembleFrom_operandLinks (w := ⟨left, o.op, o.pos⟩) (l := ⟨op, t.position, z⟩)
    hpriority hread hmore]

end Climb

/-- Climbs agree. One that meets no operator above its bound joins what it has; every other operator
takes a round, on fewer tokens. -/
theorem climbAgrees (bound : Int) (d : Nat) : ClimbAgrees ts bound d := by
  induction d with
  | zero =>
    intro os o ns left i _ hd
    cases hd
  | succ d climbs =>
    intro os o ns left i hwaits hd x
    by_cases hstop : Stops (exceeds bound) (ts.drop i)
    · rw [linksOf_of_stops hstop, climb_of_stops hstop,
        join_append hwaits.nodes hwaits.joined, pure_bind]
      refine .returns ⟨?_, hwaits.pos, hwaits.le, rfl⟩
      rw [assembleFrom_pop (by simp)]
      rfl
    obtain ⟨t, rest, op, hdrop, ht, hop⟩ := exists_of_not_stops hstop
    have hbound : bound < op.priority := by simpa [exceeds] using hop
    rw [hdrop, linksOf_cons ht hop, climb, elementAt?_eq, pure_bind, operator?_of_drop hdrop ht]
    simp only [if_neg (Int.not_le.mpr hbound)]
    rw [elementAt_last, pure_bind]
    by_cases hpriority : op.priority ≤ o.op.priority
    · rw [if_pos hpriority]
      exact agrees_climb_looser ih climbs hwaits hdrop hbound hpriority hd
    · rw [if_neg hpriority]
      exact agrees_climb_tighter ih climbs hwaits hdrop (Nat.not_le.mp hpriority) hd

/-- The loop over powers agrees with the reader of links after a sign. The climb takes every power
that follows, so the loop is left after it. -/
theorem agrees_parsePowers {rest : List Token} {i : Nat} {e : Expr} (hdrop : ts.drop i = rest)
    (hpos : 1 ≤ i) (hle : i ≤ ts.length) (hd : 5 * (ts.length - i) < d) :
    (parsePowers d ts e i).Agrees (fun a r => Took ts a (assemble e r.value) r.rest)
      (readLinks (· == .power) true rest) := by
  obtain ⟨d, rfl, hd⟩ := exists_add_one_of_lt hd
  refine .of_linksOf (R := fun a p => Took ts a (assemble e p.1) p.2) ?_
  by_cases hstop : Stops (· == .power) rest
  · rw [linksOf_of_stops hstop, parsePowers_of_stops (hdrop ▸ hstop) (Nat.succ_pos d)]
    exact .returns ⟨rfl, hpos, hle, hdrop⟩
  obtain ⟨t, us, op, rfl, ht, hop⟩ := exists_of_not_stops hstop
  obtain rfl := beq_iff_eq.mp hop
  have hlt := lt_length_of_drop hdrop
  have hus := drop_add_one_of_drop hdrop
  have hlength := length_of_drop hdrop
  rw [parsePowers, elementAt?_eq, pure_bind, getElem?_of_drop hdrop]
  simp only [ht, if_true]
  rw [linksOf_cons ht rfl, beq_power_eq_exceeds, tailFrom_of_drop hdrop, pure_bind]
  have hbound : negationPriority < BinaryOp.power.priority := by decide
  refine ((ih us (by omega)).binary (by omega) e ⟨.power, t.position⟩ hbound).bind ?_
  rintro ⟨e', n⟩ ⟨x, links, rest⟩ hr hread
  obtain ⟨hpos', hle', hrest⟩ := hr.of_drop hus hlt
  obtain rfl := hr.value_eq
  have hpowers : Stops (· == .power) rest := by
    rw [beq_power_eq_exceeds]
    exact (of_operandLinks hread).2
  simp only [Nat.add_right_comm i n 1]
  rw [parsePowers_of_stops (hrest ▸ hpowers) (by omega)]
  exact .returns ⟨rfl, hpos', hle', hrest⟩

/-- Primaries agree. A list literal and a call are read alike, up to what is made of the items. -/
theorem agrees_parsePrimary {t : Token} {us : List Token} (hts : ts = t :: us)
    (hd : 5 * us.length + 4 < d) :
    (parsePrimary d t ts).Agrees (fun a r => Took ts a r.value r.rest) (readPrimary t us) := by
  obtain ⟨d, rfl, hd⟩ := exists_add_one_of_lt hd
  have hus : ts.drop 1 = us := by rw [hts]; rfl
  have hshorter : us.length < ts.length := by simp [hts]
  have hpos : 1 ≤ ts.length := Nat.lt_of_le_of_lt (Nat.zero_le _) hshorter
  have hdelimited (closer : Symbol) (make : List Expr → Expr) :
      Run.Agrees (fun a (r : ParsedMany Expr us) => Took ts a r.value r.rest)
        (do let p ← parseDelimited d closer (← tailFrom ts 1); return (make p.1, 1 + p.2))
        (do let es ← readDelimited closer us; return ⟨make es.value, es.rest, es.notLonger⟩) := by
    rw [tailFrom_eq hpos, hus, pure_bind]
    refine ((ih us hshorter).delimited (by omega) closer).bind ?_
    rintro ⟨es, n⟩ r hr -
    obtain rfl : es = r.value := hr.value_eq
    obtain ⟨hpos', hle', hrest⟩ := hr.of_drop hus hpos
    exact .returns ⟨rfl, hpos', hle', hrest⟩
  rw [readPrimary]
  split
  · next ht =>
    rw [parsePrimary, ht]
    refine .expectMore (i := 0) hts (fun hnil => ?_) fun hne => ?_
    · rw [hnil, readChain, readOperand]
      rfl
    rw [tailFrom_eq hpos, hus, pure_bind, readChain_blame hne]
    refine ((ih us hshorter).expression (by omega)).bind ?_
    rintro ⟨e, n⟩ ⟨value, rest, hrest⟩ hr -
    obtain rfl : e = value := hr.value_eq
    obtain ⟨-, -, hrest'⟩ := hr.of_drop hus hpos
    dsimp only
    cases rest with
    | nil =>
      rw [expectMore_of_drop hus hne hrest']
      exact .refuses _
    | cons c rest =>
      rw [expectMore_of_lt (lt_length_of_drop hrest'), pure_bind,
        elementAt_eq (getElem?_of_drop hrest'), pure_bind]
      by_cases hc : c.symbol = .rightParen
      · simp only [hc, if_true]
        exact .returns ⟨rfl, by simp, lt_length_of_drop hrest', drop_add_one_of_drop hrest'⟩
      · simp only [hc, if_false]
        exact .refuses _
  · next ht =>
    rw [parsePrimary, ht]
    exact hdelimited .rightBrace fun es => .list es t.position
  · next f ht =>
    rw [parsePrimary, ht]
    exact hdelimited .rightParen fun es => .call f es t.position
  · next hparen hbrace hfunction =>
    rw [parsePrimary_eq_parseLeaf hparen hbrace hfunction]
    cases hatom : atom? t with
    | some e =>
      rw [hts, parseLeaf_of_leaf (leaf_of_atom? hatom)]
      exact .returns ⟨rfl, Nat.le_refl _, by simp, rfl⟩
    | none =>
      rw [parseLeaf_of_not_leaf hatom]
      exact .refuses _

/-- Operands agree, with a sign or without. -/
theorem agrees_parseAtom (hd : 5 * ts.length < d) :
    (parseAtom d ts).Agrees (fun a r => Took ts a r.value r.rest) (readOperand none ts) := by
  obtain ⟨d, rfl, hd⟩ := exists_add_one_of_lt hd
  cases ts with
  | nil =>
    rw [parseAtom, readOperand, expectMore_nil]
    exact .refuses _
  | cons t ts =>
    rw [List.length_cons] at hd
    by_cases ht : t.IsSign
    · rw [parseAtom, expectMore_of_lt (by simp), pure_bind, elementAt_eq rfl, pure_bind,
        readOperand]
      rcases ht with ht | ht <;>
      · simp only [ht]
        refine .expectMore (i := 0) rfl (fun hnil => ?_) fun hne => ?_
        · rw [hnil, readOperand]
          rfl
        rw [tailFrom_of_drop (i := 0) rfl, pure_bind, readOperand_blame hne]
        refine ((ih ts (Nat.lt_succ_self _)).atom (by omega)).bind ?_
        rintro ⟨e, n⟩ r hr -
        obtain rfl : e = r.value := hr.value_eq
        have hdrop : (t :: ts).drop 1 = ts := rfl
        obtain ⟨hpos, hle, hrest⟩ := hr.of_drop hdrop (by simp)
        refine (agrees_parsePowers ih hrest hpos hle (by rw [List.length_cons]; omega)).bind ?_
        rintro ⟨e, i⟩ powers hpowers -
        obtain rfl := hpowers.value_eq
        exact .returns ⟨rfl, hpowers.pos, hpowers.le, hpowers.drop_eq⟩
    · rw [parseAtom_cons ht, readOperand]
      split
      · next hsign => exact absurd (.inl hsign) ht
      · next hsign => exact absurd (.inr hsign) ht
      · refine (agrees_parsePrimary ih rfl (by omega)).bind ?_
        rintro ⟨e, i⟩ r hr -
        obtain rfl : e = r.value := hr.value_eq
        have htrailing : (t :: ts).length - i < d := by
          rw [List.length_cons]
          omega
        obtain ⟨n, hn, hin, hle, hrest⟩ := parseTrailing_eq hr.le htrailing r.value
        rw [hr.drop_eq] at hn hrest
        dsimp only
        rw [hn]
        exact .returns ⟨rfl, Nat.le_trans hr.pos hin, hle, hrest⟩

/-- What follows an operator agrees with an operand and the links above the bound. -/
theorem agrees_parseBinary (hd : 5 * ts.length + 1 < d) (left : Expr) (o : Operator) {bound : Int}
    (hbound : bound < o.op.priority) :
    (parseBinary d left o ts bound).Agrees
      (fun a p => Took ts a (assemble left (⟨o.op, o.pos, p.1⟩ :: p.2.1)) p.2.2)
      (operandLinks none (exceeds bound) ts) := by
  obtain ⟨d, rfl, hd⟩ := exists_add_one_of_lt hd
  rw [parseBinary]
  by_cases hts : ts = []
  · rw [hts, operandLinks_nil, expectMore_nil]
    exact .refuses _
  rw [expectMore_of_lt (List.length_pos_iff.mpr hts), pure_bind, operandLinks]
  refine (agrees_parseAtom ih (by omega)).bind ?_
  rintro ⟨x, i⟩ r hr -
  obtain rfl : x = r.value := hr.value_eq
  have hwaits : Waits ts bound [] o [left] left i := ⟨rfl, rfl, hbound, hr.pos, hr.le⟩
  have hclimb := climbAgrees ih bound d hwaits (by omega) r.value
  rw [hr.drop_eq] at hclimb
  refine hclimb.map_right ?_
  rintro a ⟨links, rest⟩ ha -
  exact ⟨_, rfl, ha⟩

/-- An expression is an operand with what the first operator makes of it, if there is one. -/
theorem agrees_parseExpression (hd : 5 * ts.length + 1 < d) :
    (parseExpression d ts).Agrees (fun a r => Took ts a r.value r.rest) (readChain none ts) := by
  obtain ⟨d, rfl, hd⟩ := exists_add_one_of_lt hd
  rw [parseExpression, readChain]
  refine (agrees_parseAtom ih (by omega)).bind ?_
  rintro ⟨e, i⟩ r hr -
  obtain rfl : e = r.value := hr.value_eq
  have hdrop : ts.drop i = r.rest := hr.drop_eq
  simp only [elementAt?_eq, pure_bind]
  refine (Run.Agrees.of_linksOf (R := fun a p => Took ts a (assemble r.value p.1) p.2) ?_).map_right
    fun a links ha _ => ⟨_, rfl, ha⟩
  by_cases hstop : Stops (fun _ => true) r.rest
  · have hnone : ts[i]?.bind Operator.of? = none := by
      rw [← hdrop] at hstop
      refine Option.eq_none_iff_forall_not_mem.mpr fun o ho => ?_
      cases operator?_of_stops hstop o ho
    rw [linksOf_of_stops hstop, hnone]
    exact .returns ⟨rfl, hr.pos, hr.le, hdrop⟩
  · obtain ⟨t, us, op, hcons, ht, hop⟩ := exists_of_not_stops hstop
    rw [hcons] at hdrop
    have hlt := lt_length_of_drop hdrop
    have hus := drop_add_one_of_drop hdrop
    have hlength := length_of_drop hdrop
    rw [hcons, linksOf_cons ht hop, operator?_of_drop hdrop ht, true_eq_exceeds]
    simp only [tailFrom_of_drop hdrop, pure_bind]
    have hbound : -1 < (op.priority : Int) := by omega
    refine ((ih us (by omega)).binary (by omega) r.value ⟨op, t.position⟩ hbound).bind ?_
    rintro ⟨e', n⟩ ⟨x, links, rest⟩ hr' -
    obtain ⟨hpos', hle', hrest⟩ := hr'.of_drop hus hlt
    obtain rfl := hr'.value_eq
    simp only [Nat.add_right_comm i n 1]
    exact .returns ⟨rfl, hpos', hle', hrest⟩

/-- The items from an index on come after those that were read before. -/
theorem agrees_parseItems (closer : Symbol) (es : List Expr) {i : Nat} (hlt : i < ts.length)
    (hd : 5 * (ts.length - i) + 2 < d) (blame : Option Token) :
    (parseItems d closer ts es i).Agrees (fun a r => Took ts a (es ++ r.value) r.rest)
      (readItems closer blame (ts.drop i)) := by
  induction d generalizing es i blame with
  | zero => cases hd
  | succ d items =>
    have hne : ts.drop i ≠ [] := by simp [hlt]
    have hexpression : (parseExpression d (ts.drop i)).Agrees
        (fun a r => Took (ts.drop i) a r.value r.rest) (readChain none (ts.drop i)) := by
      by_cases hi : i = 0
      · rw [hi, List.drop_zero]
        exact agrees_parseExpression ih (by omega)
      · exact (ih _ (by rw [List.length_drop]; omega)).expression (by rw [List.length_drop]; omega)
    rw [parseItems, tailFrom_eq (Nat.le_of_lt hlt), pure_bind, readItems, readChain_blame hne]
    refine hexpression.bind ?_
    rintro ⟨e, n⟩ ⟨value, rest, hshorter⟩ hr -
    obtain rfl : e = value := hr.value_eq
    obtain ⟨-, -, hrest⟩ := hr.of_drop rfl (Nat.le_of_lt hlt)
    dsimp only
    cases rest with
    | nil =>
      rw [expectMore_of_drop rfl hne hrest]
      exact .refuses _
    | cons t rest =>
      have hend := lt_length_of_drop hrest
      rw [expectMore_of_lt hend, pure_bind, elementAt_eq (getElem?_of_drop hrest), pure_bind]
      by_cases hclose : t.symbol = closer
      · simp only [hclose, if_true]
        exact .returns ⟨rfl, by simp, hend, drop_add_one_of_drop hrest⟩
      by_cases hcomma : t.symbol = .comma
      · simp only [if_neg hclose, if_pos hcomma]
        refine .expectMore hrest (fun hnil => ?_) fun hmore => ?_
        · subst hnil
          rw [readItems, readChain, readOperand]
          rfl
        have hdrop := drop_add_one_of_drop hrest
        have hlt' : i + n + 1 < ts.length := by
          rw [← hdrop] at hmore
          simpa using hmore
        have hitems := items (es ++ [e]) hlt' (by omega) (some t)
        rw [hdrop] at hitems
        refine hitems.map_right fun a r ha _ => ⟨_, rfl, ?_⟩
        rwa [List.append_assoc] at ha
      · simp only [if_neg hclose, if_neg hcomma]
        exact .refuses _

/-- Delimited expressions agree, whatever closes them. -/
theorem agrees_parseDelimited (hd : 5 * ts.length + 3 < d) (closer : Symbol) :
    (parseDelimited d closer ts).Agrees (fun a r => Took ts a r.value r.rest)
      (readDelimited closer ts) := by
  obtain ⟨d, rfl, hd⟩ := exists_add_one_of_lt hd
  cases ts with
  | nil =>
    rw [parseDelimited, readDelimited, expectMore_nil]
    exact .refuses _
  | cons t ts =>
    rw [parseDelimited, readDelimited, expectMore_of_lt (by simp), pure_bind, elementAt_eq rfl,
      pure_bind]
    by_cases ht : t.symbol = closer
    · rw [if_pos ht, if_pos ht]
      exact .returns ⟨rfl, Nat.le_refl _, by simp, rfl⟩
    · rw [if_neg ht, if_neg ht]
      exact agrees_parseItems ih closer [] (i := 0) (by simp) (by omega) none

end Step

/-- The parser agrees with the readers on all tokens. -/
theorem agreement (ts : List Token) : Agreement ts :=
  have ih (us : List Token) (_ : us.length < ts.length) : Agreement us := agreement us
  { atom := agrees_parseAtom ih
    expression := agrees_parseExpression ih
    binary := agrees_parseBinary ih
    delimited := agrees_parseDelimited ih }
termination_by ts.length

end Indexed

end Handheld
