import Handheld.Proofs.Grammar

/-!
# Reading expressions

The readers accept exactly the expressions of the grammar and return their trees. For every reader
there is first a statement of what it reads and what it leaves. From these follow soundness, by
recursion on the number of tokens, and completeness, by recursion on the tree. In a token list that
goes on after an expression, what matters is only whether the next token is an operator.
-/

namespace Handheld

/-- A computation that succeeds has a successful first part. -/
theorem Except.bind_ok {α β ε : Type} {x : Except ε α} {f : α → Except ε β} {b : β}
    (h : x >>= f = .ok b) : ∃ a, x = .ok a ∧ f a = .ok b := by
  cases x with
  | error e => cases h
  | ok a => exact ⟨a, rfl, h⟩

theorem Except.eq_ok_of_toOption {α ε : Type} {x : Except ε α} {a : α} (h : x.toOption = some a) :
    x = .ok a := by
  cases x with
  | error e => cases h
  | ok b => exact congrArg Except.ok (Option.some.inj h)

/-- Another wording of faults leaves results as they are. -/
theorem Except.mapError_ok {α δ ε : Type} {x : Except δ α} {g : δ → ε} {a : α}
    (h : x.mapError g = .ok a) : x = .ok a := by
  cases x with
  | error d => cases h
  | ok b => rw [Except.ok.inj h]

/-- The reading succeeds with `a` and leaves `rest`. -/
def Parsed.Reads {α : Type} {ts : List Token} (x : Except ParseFault (Parsed α ts)) (a : α)
    (rest : List Token) : Prop :=
  ∃ r, x = .ok r ∧ r.value = a ∧ r.rest = rest

/-- What is left of the tokens is shorter than the tokens. -/
theorem Parsed.Reads.length_lt {α : Type} {ts rest : List Token}
    {x : Except ParseFault (Parsed α ts)} {a : α} (h : Reads x a rest) :
    rest.length < ts.length := by
  obtain ⟨r, -, -, rfl⟩ := h
  exact r.shorter

/-- The reading succeeds with `a` and leaves `rest`. -/
def ParsedMany.Reads {α : Type} {ts : List Token} (x : Except ParseFault (ParsedMany α ts)) (a : α)
    (rest : List Token) : Prop :=
  ∃ r, x = .ok r ∧ r.value = a ∧ r.rest = rest

namespace Expr

section Readers

variable {t : Token} {ts rest : List Token} {e : Expr} {es : List Expr} {links : List Link}
  {blame : Option Token} {accept : BinaryOp → Bool} {first : Bool} {closer : Symbol}

/-- The next token, if there is one, is no binary operator that `accept` admits. -/
def Stops (accept : BinaryOp → Bool) (ts : List Token) : Prop :=
  ∀ t ∈ ts.head?, ∀ op, t.symbol = .binary op → accept op = false

/-- The next token, if there is one, is no trailing operator. -/
def Untrailed (ts : List Token) : Prop :=
  ∀ t ∈ ts.head?, ∀ op, t.symbol = .unary op → op.isTrailing = false

/-- There is no operand without tokens. -/
theorem reads_operand_nil : ¬ Parsed.Reads (readOperand blame []) e rest := by
  rintro ⟨r, hread, -⟩
  rw [readOperand] at hread
  cases hread

/-- After a sign an operand is read, with all powers that follow it. -/
theorem reads_operand_sign (ht : t.IsSign) :
    Parsed.Reads (readOperand blame (t :: ts)) e rest ↔
      ∃ e₁ mid links, Parsed.Reads (readOperand (some t) ts) e₁ mid ∧
        ParsedMany.Reads (readLinks (· == .power) true mid) links rest ∧
        e = .unary .negate (assemble e₁ links) t.position := by
  unfold Parsed.Reads
  rw [readOperand]
  constructor
  · rintro ⟨r, hread, rfl, rfl⟩
    rcases ht with ht | ht <;>
    · simp only [ht] at hread
      obtain ⟨e₁, he₁, hread⟩ := Except.bind_ok hread
      obtain ⟨powers, hpowers, hread⟩ := Except.bind_ok hread
      cases hread
      exact ⟨_, _, _, ⟨_, he₁, rfl, rfl⟩, ⟨_, hpowers, rfl, rfl⟩, rfl⟩
  · rintro ⟨_, _, _, ⟨e₁, he₁, rfl, rfl⟩, ⟨powers, hpowers, rfl, rfl⟩, rfl⟩
    rcases ht with ht | ht <;>
    · simp only [ht]
      rw [he₁]
      simp only [bind, Except.bind]
      rw [hpowers]
      exact ⟨_, rfl, rfl, rfl⟩

/-- Any other operand is a primary with its trailing operators. -/
theorem reads_operand_primary (ht : ¬ t.IsSign) :
    Parsed.Reads (readOperand blame (t :: ts)) e rest ↔
      ∃ e₁ mid, ParsedMany.Reads (readPrimary t ts) e₁ mid ∧ trailing e₁ mid = (e, rest) := by
  unfold Parsed.Reads
  rw [readOperand]
  constructor
  · rintro ⟨r, hread, rfl, rfl⟩
    split at hread
    · next hsign => exact absurd (.inl hsign) ht
    · next hsign => exact absurd (.inr hsign) ht
    · obtain ⟨e₁, he₁, hread⟩ := Except.bind_ok hread
      cases hread
      exact ⟨_, _, ⟨_, he₁, rfl, rfl⟩, rfl⟩
  · rintro ⟨_, _, ⟨e₁, he₁, rfl, rfl⟩, htrailing⟩
    split
    · next hsign => exact absurd (.inl hsign) ht
    · next hsign => exact absurd (.inr hsign) ht
    · rw [he₁]
      exact ⟨_, rfl, congrArg Prod.fst htrailing, congrArg Prod.snd htrailing⟩

/-- No link is read where no operator comes that is admitted. -/
theorem reads_links_stop (hstop : Stops accept ts) :
    ParsedMany.Reads (readLinks accept first ts) links rest ↔ links = [] ∧ rest = ts := by
  have hread : ∃ h, readLinks accept first ts = .ok ⟨[], ts, h⟩ := by
    refine ⟨Nat.le_refl _, ?_⟩
    cases ts with
    | nil => rw [readLinks]
    | cons t ts =>
      rw [readLinks]
      cases ht : t.symbol with
      | binary op => simp [hstop t rfl op ht]
      | _ => rfl
  obtain ⟨h, hread⟩ := hread
  unfold ParsedMany.Reads
  rw [hread]
  constructor
  · rintro ⟨r, hr, rfl, rfl⟩
    cases hr
    exact ⟨rfl, rfl⟩
  · rintro ⟨rfl, rfl⟩
    exact ⟨_, rfl, rfl, rfl⟩

/-- An operator that is admitted starts a link, whose operand is read before the links after it. -/
theorem reads_links_cons {op : BinaryOp} (ht : t.symbol = .binary op) (hop : accept op = true) :
    ParsedMany.Reads (readLinks accept first (t :: ts)) links rest ↔
      ∃ e mid more, Parsed.Reads (readOperand (if first then none else some t) ts) e mid ∧
        ParsedMany.Reads (readLinks accept false mid) more rest ∧
        links = ⟨op, t.position, e⟩ :: more := by
  unfold ParsedMany.Reads
  rw [readLinks]
  simp only [ht, hop, if_true]
  constructor
  · rintro ⟨r, hread, rfl, rfl⟩
    obtain ⟨e, he, hread⟩ := Except.bind_ok hread
    obtain ⟨more, hmore, hread⟩ := Except.bind_ok hread
    cases hread
    exact ⟨_, _, _, ⟨_, he, rfl, rfl⟩, ⟨_, hmore, rfl, rfl⟩, rfl⟩
  · rintro ⟨_, _, _, ⟨e, he, rfl, rfl⟩, ⟨more, hmore, rfl, rfl⟩, rfl⟩
    rw [he]
    simp only [bind, Except.bind]
    rw [hmore]
    exact ⟨_, rfl, rfl, rfl⟩

/-- A chain is an operand with links, and has the tree of the chain. -/
theorem reads_chain :
    Parsed.Reads (readChain blame ts) e rest ↔
      ∃ e₁ mid links, Parsed.Reads (readOperand blame ts) e₁ mid ∧
        ParsedMany.Reads (readLinks (fun _ => true) true mid) links rest ∧
        ChainTree e₁ links e := by
  unfold Parsed.Reads
  rw [readChain]
  constructor
  · rintro ⟨r, hread, rfl, rfl⟩
    obtain ⟨e₁, he₁, hread⟩ := Except.bind_ok hread
    obtain ⟨links, hlinks, hread⟩ := Except.bind_ok hread
    cases hread
    exact ⟨_, _, _, ⟨_, he₁, rfl, rfl⟩, ⟨_, hlinks, rfl, rfl⟩, assemble_eq_iff.mp rfl⟩
  · rintro ⟨_, _, _, ⟨e₁, he₁, rfl, rfl⟩, ⟨links, hlinks, rfl, rfl⟩, htree⟩
    rw [he₁]
    simp only [bind, Except.bind]
    rw [hlinks]
    exact ⟨_, rfl, assemble_eq_iff.mpr htree, rfl⟩

/-- A single token is read as its expression. -/
theorem reads_primary_leaf (hleaf : Leaf t e) :
    ParsedMany.Reads (readPrimary t ts) e ts := by
  unfold ParsedMany.Reads
  rw [readPrimary]
  cases hleaf <;> exact ⟨_, rfl, rfl, rfl⟩

/-- A group is read as what stands in its parentheses. -/
theorem reads_primary_group (ht : t.symbol = .leftParen) :
    ParsedMany.Reads (readPrimary t ts) e rest ↔
      ∃ c, Parsed.Reads (readChain (some t) ts) e (c :: rest) ∧ c.symbol = .rightParen := by
  unfold ParsedMany.Reads
  rw [readPrimary]
  simp only [ht]
  constructor
  · rintro ⟨r, hread, rfl, rfl⟩
    obtain ⟨⟨e₁, mid, hshorter⟩, he₁, hread⟩ := Except.bind_ok hread
    cases mid with
    | nil => cases hread
    | cons c mid =>
      by_cases hc : c.symbol = .rightParen
      · simp only [hc, if_true] at hread
        cases hread
        exact ⟨c, ⟨_, he₁, rfl, rfl⟩, hc⟩
      · simp only [hc, if_false] at hread
        cases hread
  · rintro ⟨c, ⟨⟨e₁, mid, hshorter⟩, he₁, rfl, hmid⟩, hc⟩
    cases hmid
    rw [he₁]
    simp only [bind, Except.bind, hc, if_true]
    exact ⟨_, rfl, rfl, rfl⟩

/-- A list literal and a call are read alike, up to what is made of the items. -/
theorem reads_primary_delimited (make : List Expr → Expr)
    (hread : readPrimary t ts = do
      let es ← readDelimited closer ts
      return ⟨make es.value, es.rest, es.notLonger⟩) :
    ParsedMany.Reads (readPrimary t ts) e rest ↔
      ∃ es, ParsedMany.Reads (readDelimited closer ts) es rest ∧ e = make es := by
  unfold ParsedMany.Reads
  rw [hread]
  constructor
  · rintro ⟨r, hread, rfl, rfl⟩
    obtain ⟨es, hes, hread⟩ := Except.bind_ok hread
    cases hread
    exact ⟨_, ⟨_, hes, rfl, rfl⟩, rfl⟩
  · rintro ⟨_, ⟨es, hes, rfl, rfl⟩, rfl⟩
    rw [hes]
    exact ⟨_, rfl, rfl, rfl⟩

/-- A list literal is read as its items. -/
theorem reads_primary_list (ht : t.symbol = .leftBrace) :
    ParsedMany.Reads (readPrimary t ts) e rest ↔
      ∃ es, ParsedMany.Reads (readDelimited .rightBrace ts) es rest ∧ e = .list es t.position :=
  reads_primary_delimited (fun es => .list es t.position) (by rw [readPrimary, ht])

/-- A call is read as its arguments. -/
theorem reads_primary_call {f : String} (ht : t.symbol = .function f) :
    ParsedMany.Reads (readPrimary t ts) e rest ↔
      ∃ es, ParsedMany.Reads (readDelimited .rightParen ts) es rest ∧
        e = .call f es t.position :=
  reads_primary_delimited (fun es => .call f es t.position) (by rw [readPrimary, ht])

/-- What is taken for an atom is a leaf. -/
theorem leaf_of_atom? (h : atom? t = some e) : Leaf t e := by
  obtain ⟨symbol, p⟩ := t
  cases symbol <;> cases h <;> constructor

/-- What starts a primary is an opening symbol, or it is a leaf on its own. -/
theorem reads_primary_cases (h : ParsedMany.Reads (readPrimary t ts) e rest) :
    t.symbol = .leftParen ∨ t.symbol = .leftBrace ∨ (∃ f, t.symbol = .function f) ∨
      Leaf t e ∧ rest = ts := by
  obtain ⟨r, hread, rfl, rfl⟩ := h
  rw [readPrimary] at hread
  split at hread
  · next ht => exact .inl ht
  · next ht => exact .inr (.inl ht)
  · next f ht => exact .inr (.inr (.inl ⟨f, ht⟩))
  · split at hread
    · next e he =>
      cases hread
      exact .inr (.inr (.inr ⟨leaf_of_atom? he, rfl⟩))
    · cases hread

/-- Items are a chain before the closing symbol, or a chain, a comma and further items. -/
theorem reads_items (hcloser : closer ≠ .comma) :
    ParsedMany.Reads (readItems closer blame ts) es rest ↔
      (∃ e t, Parsed.Reads (readChain blame ts) e (t :: rest) ∧ t.symbol = closer ∧ es = [e]) ∨
      ∃ e t mid more, Parsed.Reads (readChain blame ts) e (t :: mid) ∧ t.symbol = .comma ∧
        ParsedMany.Reads (readItems closer (some t) mid) more rest ∧ es = e :: more := by
  unfold ParsedMany.Reads
  rw [readItems]
  constructor
  · rintro ⟨r, hread, rfl, rfl⟩
    obtain ⟨⟨e, mid, hshorter⟩, he, hread⟩ := Except.bind_ok hread
    cases mid with
    | nil => cases hread
    | cons t mid =>
      by_cases hclose : t.symbol = closer
      · simp only [hclose, if_true] at hread
        cases hread
        exact .inl ⟨e, t, ⟨_, he, rfl, rfl⟩, hclose, rfl⟩
      · by_cases hcomma : t.symbol = .comma
        · simp only [hcomma, hcloser.symm, if_false, if_true] at hread
          obtain ⟨more, hmore, hread⟩ := Except.bind_ok hread
          cases hread
          exact .inr ⟨e, t, _, _, ⟨_, he, rfl, rfl⟩, hcomma, ⟨_, hmore, rfl, rfl⟩, rfl⟩
        · simp only [hclose, hcomma, if_false] at hread
          cases hread
  · rintro (⟨_, t, ⟨⟨e, mid, hshorter⟩, he, rfl, hmid⟩, hclose, rfl⟩ |
      ⟨_, t, _, _, ⟨⟨e, mid, hshorter⟩, he, rfl, hmid⟩, hcomma, ⟨more, hmore, rfl, rfl⟩, rfl⟩)
    · cases hmid
      rw [he]
      simp only [bind, Except.bind, hclose, if_true]
      exact ⟨_, rfl, rfl, rfl⟩
    · cases hmid
      rw [he]
      simp only [bind, Except.bind, hcomma, hcloser.symm, if_false, if_true]
      rw [hmore]
      exact ⟨_, rfl, rfl, rfl⟩

/-- Nothing stands before a closing symbol. -/
theorem reads_delimited_close (ht : t.symbol = closer) :
    ParsedMany.Reads (readDelimited closer (t :: ts)) es rest ↔ es = [] ∧ rest = ts := by
  unfold ParsedMany.Reads
  rw [readDelimited]
  simp only [ht, if_true]
  constructor
  · rintro ⟨r, hread, rfl, rfl⟩
    cases hread
    exact ⟨rfl, rfl⟩
  · rintro ⟨rfl, rfl⟩
    exact ⟨_, rfl, rfl, rfl⟩

/-- Before any other symbol there are items. -/
theorem reads_delimited_items (ht : t.symbol ≠ closer) :
    ParsedMany.Reads (readDelimited closer (t :: ts)) es rest ↔
      ParsedMany.Reads (readItems closer none (t :: ts)) es rest := by
  rw [readDelimited, if_neg ht]

/-- Nothing is delimited without a closing symbol. -/
theorem reads_delimited_nil : ¬ ParsedMany.Reads (readDelimited closer []) es rest := by
  rintro ⟨r, hread, -⟩
  rw [readDelimited] at hread
  cases hread

end Readers

/-- The trailing operators that are taken wrap the expression. -/
private theorem exists_trailed_of_trailing {e e' : Expr} {ts rest : List Token}
    (h : trailing e ts = (e', rest)) : ∃ us, ts = us ++ rest ∧ Trailed e us e' := by
  induction ts generalizing e with
  | nil =>
    cases h
    exact ⟨[], rfl, .nil⟩
  | cons t ts ih =>
    unfold trailing at h
    split at h
    · next op ht =>
      split at h
      · next hop =>
        obtain ⟨us, rfl, hus⟩ := ih h
        exact ⟨t :: us, rfl, .cons ht ((UnaryOp.isTrailing_iff op).mp hop) hus⟩
      · cases h
        exact ⟨[], rfl, .nil⟩
    · cases h
      exact ⟨[], rfl, .nil⟩

mutual

/-- What an operand is read from forms it, and a negation leaves no power behind. The recursion is
that of the readers: on the number of tokens, and for one number on the reader. -/
theorem tree_of_reads_operand {blame : Option Token} {ts rest : List Token} {e : Expr}
    (h : Parsed.Reads (readOperand blame ts) e rest) :
    ∃ negated us, ts = us ++ rest ∧ Tree.Operand negated us e ∧
      (negated = true → Stops (· == .power) rest) := by
  match ts with
  | [] => exact absurd h reads_operand_nil
  | t :: ts =>
    by_cases ht : t.IsSign
    · obtain ⟨e₁, mid, links, he₁, hlinks, rfl⟩ := (reads_operand_sign ht).mp h
      have hmid := he₁.length_lt
      obtain ⟨negated, us, rfl, hus, hstop⟩ := tree_of_reads_operand he₁
      obtain ⟨vs, rfl, hvs, hpowers, hrest⟩ := tree_of_reads_links hstop hlinks
      have hpowers (l : Link) (hl : l ∈ links) : l.op = .power := beq_iff_eq.mp (hpowers l hl)
      rw [assemble_of_level fun l hl => congrArg BinaryOp.level (hpowers l hl)]
      exact ⟨true, t :: (us ++ vs), by simp, .negation ht hus hvs hpowers, fun _ => hrest⟩
    · obtain ⟨e₁, mid, he₁, htrailing⟩ := (reads_operand_primary ht).mp h
      obtain ⟨us, rfl, hus⟩ := exists_trailed_of_trailing htrailing
      obtain ⟨vs, hvs, htree⟩ := tree_of_reads_primary he₁
      exact ⟨false, vs ++ us, by simp [hvs], .trailed htree hus, by simp⟩
termination_by (ts.length, 0)

/-- What links are read from forms them, and they are as many as can be. -/
theorem tree_of_reads_links {accept : BinaryOp → Bool} {first negated : Bool}
    {ts rest : List Token} {links : List Link} (hstop : negated = true → Stops (· == .power) ts)
    (h : ParsedMany.Reads (readLinks accept first ts) links rest) :
    ∃ us, ts = us ++ rest ∧ Tree.Links negated us links ∧ (∀ l ∈ links, accept l.op = true) ∧
      Stops accept rest := by
  by_cases hts : Stops accept ts
  · obtain ⟨rfl, rfl⟩ := (reads_links_stop hts).mp h
    exact ⟨[], rfl, .nil, by simp, hts⟩
  · match ts with
    | [] => exact absurd (by simp [Stops]) hts
    | t :: ts =>
      have ⟨op, ht, hop⟩ : ∃ op, t.symbol = .binary op ∧ accept op = true := by
        simpa [Stops] using hts
      obtain ⟨e, mid, more, he, hmore, rfl⟩ := (reads_links_cons ht hop).mp h
      have hmid := he.length_lt
      obtain ⟨negated', us, rfl, hus, hstop'⟩ := tree_of_reads_operand he
      obtain ⟨vs, rfl, hvs, haccept, hrest⟩ := tree_of_reads_links hstop' hmore
      refine ⟨t :: (us ++ vs), by simp, .cons ht (fun hneg => ?_) hus hvs, fun l hl => ?_, hrest⟩
      · simpa using hstop hneg t rfl op ht
      · rcases List.mem_cons.mp hl with rfl | hl
        · exact hop
        · exact haccept l hl
termination_by (ts.length, 1)

/-- A chain that was read is an expression with that tree. -/
theorem tree_of_reads_chain {blame : Option Token} {ts rest : List Token} {e : Expr}
    (h : Parsed.Reads (readChain blame ts) e rest) :
    ∃ us, ts = us ++ rest ∧ Tree.Expression us e := by
  obtain ⟨e₁, mid, links, he₁, hlinks, htree⟩ := reads_chain.mp h
  have hmid := he₁.length_lt
  obtain ⟨negated, us, rfl, hus, hstop⟩ := tree_of_reads_operand he₁
  obtain ⟨vs, rfl, hvs, -, -⟩ := tree_of_reads_links hstop hlinks
  exact ⟨us ++ vs, by simp, .chain hus hvs htree⟩
termination_by (ts.length, 2)

/-- A primary that was read has that tree. -/
theorem tree_of_reads_primary {t : Token} {ts rest : List Token} {e : Expr}
    (h : ParsedMany.Reads (readPrimary t ts) e rest) :
    ∃ us, t :: ts = us ++ rest ∧ Tree.Primary us e := by
  rcases reads_primary_cases h with ht | ht | ⟨f, ht⟩ | ⟨hleaf, rfl⟩
  · obtain ⟨c, he, hc⟩ := (reads_primary_group ht).mp h
    obtain ⟨us, rfl, hus⟩ := tree_of_reads_chain he
    exact ⟨t :: (us ++ [c]), by simp, .group ht hus hc⟩
  · obtain ⟨es, hes, rfl⟩ := (reads_primary_list ht).mp h
    obtain ⟨us, c, rfl, hus, hc⟩ := tree_of_reads_delimited (by simp) hes
    exact ⟨t :: (us ++ [c]), by simp, .list ht hus hc⟩
  · obtain ⟨es, hes, rfl⟩ := (reads_primary_call ht).mp h
    obtain ⟨us, c, rfl, hus, hc⟩ := tree_of_reads_delimited (by simp) hes
    exact ⟨t :: (us ++ [c]), by simp, .call ht hus hc⟩
  · exact ⟨[t], rfl, .leaf hleaf⟩
termination_by (ts.length, 5)

/-- Items that were read have those trees, and the closing symbol follows them. -/
theorem tree_of_reads_items {closer : Symbol} {blame : Option Token} {ts rest : List Token}
    {es : List Expr} (hcloser : closer ≠ .comma)
    (h : ParsedMany.Reads (readItems closer blame ts) es rest) :
    ∃ us c, ts = us ++ c :: rest ∧ Tree.SomeItems us es ∧ c.symbol = closer := by
  rcases (reads_items hcloser).mp h with ⟨e, t, he, ht, rfl⟩ | ⟨e, t, mid, more, he, ht, hmore, rfl⟩
  · obtain ⟨us, rfl, hus⟩ := tree_of_reads_chain he
    exact ⟨us, t, rfl, .one hus, ht⟩
  · have hmid := he.length_lt
    obtain ⟨us, rfl, hus⟩ := tree_of_reads_chain he
    obtain ⟨vs, c, rfl, hvs, hc⟩ := tree_of_reads_items hcloser hmore
    exact ⟨us ++ t :: vs, c, by simp, .more hus ht hvs, hc⟩
termination_by (ts.length, 3)

/-- What was read up to a closing symbol has those trees. -/
theorem tree_of_reads_delimited {closer : Symbol} {ts rest : List Token} {es : List Expr}
    (hcloser : closer ≠ .comma) (h : ParsedMany.Reads (readDelimited closer ts) es rest) :
    ∃ us c, ts = us ++ c :: rest ∧ Tree.Items us es ∧ c.symbol = closer := by
  match ts with
  | [] => exact absurd h reads_delimited_nil
  | t :: ts =>
    by_cases ht : t.symbol = closer
    · obtain ⟨rfl, rfl⟩ := (reads_delimited_close ht).mp h
      exact ⟨[], t, rfl, .none, ht⟩
    · have h := (reads_delimited_items ht).mp h
      obtain ⟨us, c, hus, htree, hc⟩ := tree_of_reads_items hcloser h
      exact ⟨us, c, hus, .some htree, hc⟩
termination_by (ts.length, 4)

end

/-- All trailing operators are taken, up to a token that is none. -/
theorem trailing_append {e e' : Expr} {us rest : List Token} (h : Trailed e us e')
    (hrest : Untrailed rest) : trailing e (us ++ rest) = (e', rest) := by
  induction h with
  | nil =>
    cases rest with
    | nil => rfl
    | cons t rest =>
      rw [List.nil_append, trailing]
      split
      · next op ht => rw [hrest t rfl op ht]; rfl
      · rfl
  | @cons _ _ t op ts ht hop h ih =>
    have hop : op.isTrailing = true := (UnaryOp.isTrailing_iff op).mpr hop
    rw [List.cons_append, trailing, ht]
    simpa only [hop, if_true] using ih

/-- An expression can end here: no operator comes next. -/
structure Ends (ts : List Token) : Prop where
  stops : Stops (fun _ => true) ts
  untrailed : Untrailed ts

private theorem ends_nil : Ends [] := ⟨by simp [Stops], by simp [Untrailed]⟩

/-- An expression can end before a comma and before a closing symbol. -/
private theorem ends_cons {t : Token} {ts : List Token}
    (ht : t.symbol = .comma ∨ t.symbol = .rightParen ∨ t.symbol = .rightBrace) :
    Ends (t :: ts) := by
  rcases ht with ht | ht | ht <;> exact ⟨by simp [Stops, ht], by simp [Untrailed, ht]⟩

end Expr

namespace Tree

section Heads

variable {negated : Bool} {ts us rest : List Token} {e : Expr} {es : List Expr}
  {links : List Expr.Link}

/-- Links begin with a binary operator. -/
theorem Links.untrailed_append (h : Links negated us links) (hrest : Expr.Untrailed rest) :
    Expr.Untrailed (us ++ rest) := by
  cases h with
  | nil => exact hrest
  | cons ht => simp [Expr.Untrailed, ht]

/-- Links that follow a negation do not begin with a power. -/
theorem Links.stops_append (h : Links negated us links) (hnegated : negated = true)
    (hrest : Expr.Stops (· == .power) rest) : Expr.Stops (· == .power) (us ++ rest) := by
  cases h with
  | nil => exact hrest
  | cons ht hlongest => simp [Expr.Stops, ht, hlongest hnegated]

/-- A primary starts with a token that is neither a sign nor a closing symbol. -/
private theorem Primary.head (h : Primary ts e) :
    ∃ t us, ts = t :: us ∧ ¬ t.IsSign ∧ t.symbol ≠ .rightParen ∧ t.symbol ≠ .rightBrace := by
  cases h with
  | leaf h => cases h <;> exact ⟨_, _, rfl, by simp [Token.IsSign]⟩
  | group hl => exact ⟨_, _, rfl, by simp [Token.IsSign, hl]⟩
  | list hl => exact ⟨_, _, rfl, by simp [Token.IsSign, hl]⟩
  | call hl => exact ⟨_, _, rfl, by simp [Token.IsSign, hl]⟩

private theorem Expression.head (h : Expression ts e) :
    ∃ t us, ts = t :: us ∧ t.symbol ≠ .rightParen ∧ t.symbol ≠ .rightBrace := by
  obtain ⟨h, -, -⟩ := h
  cases h with
  | negation ht =>
    refine ⟨_, _, rfl, ?_⟩
    rcases ht with ht | ht <;> simp [ht]
  | trailed h =>
    obtain ⟨t, us, rfl, -, hclose⟩ := h.head
    exact ⟨t, _, rfl, hclose⟩

private theorem SomeItems.head (h : SomeItems ts es) :
    ∃ t us, ts = t :: us ∧ t.symbol ≠ .rightParen ∧ t.symbol ≠ .rightBrace := by
  cases h with
  | one h => exact h.head
  | more h =>
    obtain ⟨t, us, rfl, hclose⟩ := h.head
    exact ⟨t, _, rfl, hclose⟩

end Heads

mutual

/-- An operand is read where no trailing operator follows and, after a negation, no power. The
recursion is on the tree; a reader sees more tokens than the tree has, so each statement says after
which tokens it stops where the tree does. -/
theorem Operand.reads {negated : Bool} {ts rest : List Token} {e : Expr}
    (h : Operand negated ts e) (hrest : Expr.Untrailed rest)
    (hstop : negated = true → Expr.Stops (· == .power) rest) (blame : Option Token) :
    Parsed.Reads (Expr.readOperand blame (ts ++ rest)) e rest := by
  match h with
  | @Operand.negation negated t ts us e links ht h hlinks hpowers =>
    rw [List.cons_append, List.append_assoc, Expr.reads_operand_sign ht]
    refine ⟨e, us ++ rest, links, ?_, ?_, ?_⟩
    · exact Operand.reads h (hlinks.untrailed_append hrest)
        (fun hnegated => hlinks.stops_append hnegated (hstop rfl)) _
    · refine Links.reads hlinks rfl (fun l hl => ?_) hrest (hstop rfl) true
      exact beq_iff_eq.mpr (hpowers l hl)
    · rw [Expr.assemble_of_level fun l hl => congrArg BinaryOp.level (hpowers l hl)]
  | @Operand.trailed ts us e e' h hus =>
    obtain ⟨t, vs, hts, hsign, -⟩ := h.head
    rw [List.append_assoc, hts, List.cons_append, Expr.reads_operand_primary hsign]
    exact ⟨e, us ++ rest, Primary.reads h hts _, Expr.trailing_append hus hrest⟩

/-- Links are read where no operator follows that is admitted. -/
theorem Links.reads {negated : Bool} {accept : BinaryOp → Bool} {us rest : List Token}
    {links : List Expr.Link} (h : Links negated us links) (hpower : accept .power = true)
    (haccept : ∀ l ∈ links, accept l.op = true) (hrest : Expr.Untrailed rest)
    (hstop : Expr.Stops accept rest) (first : Bool) :
    ParsedMany.Reads (Expr.readLinks accept first (us ++ rest)) links rest := by
  match h with
  | .nil => exact (Expr.reads_links_stop hstop).mpr ⟨rfl, rfl⟩
  | @Links.cons _ negated' t op ts us e links ht _ h hus =>
    have hop : accept op = true := haccept _ (List.mem_cons_self ..)
    have hpowers : Expr.Stops (· == .power) rest := by
      intro t ht op hsymbol
      cases op with
      | power => exact absurd hpower (by simp [hstop t ht _ hsymbol])
      | _ => rfl
    rw [List.cons_append, List.append_assoc, Expr.reads_links_cons ht hop]
    refine ⟨e, us ++ rest, links, ?_, ?_, rfl⟩
    · exact Operand.reads h (hus.untrailed_append hrest)
        (fun hnegated => hus.stops_append hnegated hpowers) _
    · exact Links.reads hus hpower (fun l hl => haccept l (List.mem_cons_of_mem _ hl)) hrest hstop _

/-- An expression is read where no operator follows. -/
theorem Expression.reads {ts rest : List Token} {e : Expr} (h : Expression ts e)
    (hrest : Expr.Ends rest) (blame : Option Token) :
    Parsed.Reads (Expr.readChain blame (ts ++ rest)) e rest := by
  match h with
  | @Expression.chain negated ts us e tree links h hlinks htree =>
    have hpowers : Expr.Stops (· == .power) rest := fun t ht op hop =>
      absurd (hrest.stops t ht op hop) (by simp)
    rw [List.append_assoc, Expr.reads_chain]
    refine ⟨e, us ++ rest, links, ?_, ?_, htree⟩
    · exact Operand.reads h (hlinks.untrailed_append hrest.untrailed)
        (fun hnegated => hlinks.stops_append hnegated hpowers) _
    · exact Links.reads hlinks rfl (fun _ _ => rfl) hrest.untrailed hrest.stops _

/-- A primary is read whatever follows. -/
theorem Primary.reads {t : Token} {ts us : List Token} {e : Expr} (h : Primary ts e)
    (hts : ts = t :: us) (rest : List Token) :
    ParsedMany.Reads (Expr.readPrimary t (us ++ rest)) e rest := by
  match h with
  | .leaf h =>
    cases hts
    exact Expr.reads_primary_leaf h
  | .group hl h hr =>
    cases hts
    rw [List.append_assoc, Expr.reads_primary_group hl]
    exact ⟨_, Expression.reads h (Expr.ends_cons (.inr (.inl hr))) _, hr⟩
  | .list hl h hr =>
    cases hts
    rw [List.append_assoc, Expr.reads_primary_list hl]
    exact ⟨_, Items.reads h hr (.inr rfl) rest, rfl⟩
  | .call hl h hr =>
    cases hts
    rw [List.append_assoc, Expr.reads_primary_call hl]
    exact ⟨_, Items.reads h hr (.inl rfl) rest, rfl⟩

/-- Items are read up to their closing symbol, if there are any. -/
theorem Items.reads {closer : Symbol} {c : Token} {ts : List Token} {es : List Expr}
    (h : Items ts es) (hc : c.symbol = closer)
    (hcloser : closer = .rightParen ∨ closer = .rightBrace) (rest : List Token) :
    ParsedMany.Reads (Expr.readDelimited closer (ts ++ c :: rest)) es rest := by
  match h with
  | .none => exact (Expr.reads_delimited_close hc).mpr ⟨rfl, rfl⟩
  | .some h =>
    obtain ⟨t, us, hts, hparen, hbrace⟩ := h.head
    have ht : t.symbol ≠ closer := by
      rcases hcloser with rfl | rfl
      · exact hparen
      · exact hbrace
    rw [hts, List.cons_append, Expr.reads_delimited_items ht, ← List.cons_append, ← hts]
    exact SomeItems.reads h hc hcloser none rest

/-- Items are read up to their closing symbol. -/
theorem SomeItems.reads {closer : Symbol} {c : Token} {ts : List Token} {es : List Expr}
    (h : SomeItems ts es) (hc : c.symbol = closer)
    (hcloser : closer = .rightParen ∨ closer = .rightBrace) (blame : Option Token)
    (rest : List Token) :
    ParsedMany.Reads (Expr.readItems closer blame (ts ++ c :: rest)) es rest := by
  have hcomma : closer ≠ .comma := by rcases hcloser with rfl | rfl <;> simp
  rw [Expr.reads_items hcomma]
  match h with
  | .one h =>
    have hrest : Expr.Ends (c :: rest) := Expr.ends_cons (.inr (hc ▸ hcloser))
    exact .inl ⟨_, c, Expression.reads h hrest blame, hc, rfl⟩
  | @SomeItems.more ts us t e es h ht hmore =>
    have hrest : Expr.Ends (t :: (us ++ c :: rest)) := Expr.ends_cons (.inl ht)
    rw [List.append_assoc, List.cons_append]
    exact .inr ⟨e, t, us ++ c :: rest, es, Expression.reads h hrest blame, ht,
      SomeItems.reads hmore hc hcloser (some t) rest, rfl⟩

end

end Tree

namespace Expr

/-- Tokens are an expression exactly if a chain is read from them and nothing is left. -/
theorem ofTokens_eq_ok_iff_reads {ts : List Token} {e : Expr} :
    ofTokens ts = .ok e ↔ Parsed.Reads (readChain none ts) e [] := by
  unfold Parsed.Reads
  rw [ofTokens]
  constructor
  · intro h
    obtain ⟨⟨e₁, rest, hshorter⟩, he₁, h⟩ := Except.bind_ok h
    cases rest with
    | nil =>
      cases h
      exact ⟨_, he₁, rfl, rfl⟩
    | cons t rest => cases h
  · rintro ⟨⟨e₁, rest, hshorter⟩, he₁, rfl, rfl⟩
    rw [he₁]
    rfl

/-- The trees that are returned are those of the grammar. -/
theorem ofTokens_eq_ok_iff_tree {ts : List Token} {e : Expr} :
    ofTokens ts = .ok e ↔ Tree.Expression ts e := by
  rw [ofTokens_eq_ok_iff_reads]
  constructor
  · intro h
    obtain ⟨us, rfl, hus⟩ := tree_of_reads_chain h
    rwa [List.append_nil]
  · intro h
    have hreads := h.reads ends_nil none
    rwa [List.append_nil] at hreads

/-- Tokens are read as an expression if and only if the grammar has them as one, and the result is
exactly the tree of that expression. -/
theorem ofTokens_ok_iff_grammar (ts : List Token) :
    ((∃ e, ofTokens ts = .ok e) ↔ Grammar.Expression ts) ∧
      ∀ e, ofTokens ts = .ok e ↔ Tree.Expression ts e := by
  refine ⟨⟨?_, fun h => ?_⟩, fun e => ofTokens_eq_ok_iff_tree⟩
  · rintro ⟨e, he⟩
    exact (ofTokens_eq_ok_iff_tree.mp he).grammar
  · obtain ⟨e, he⟩ := h.exists_tree
    exact ⟨e, ofTokens_eq_ok_iff_tree.mpr he⟩

end Expr

end Handheld
