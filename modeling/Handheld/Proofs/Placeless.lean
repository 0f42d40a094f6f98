import Handheld.Proofs.Normalization
import Handheld.Proofs.Reading

/-!
# Reading without places

Where tokens stand has no influence on how they are read. Two token lists with the same symbols are
both refused, or are both read, and then as statements that differ in the places of their parts
only.
-/

namespace Handheld

open Token (symbols)

/-- Both computations fail, or both succeed with related results. -/
def Alike {α β δ ε : Type} (r : α → β → Prop) : Except δ α → Except ε β → Prop
  | .ok a, .ok b => r a b
  | .error _, .error _ => True
  | _, _ => False

namespace Alike

variable {α β α' β' δ ε : Type} {r : α → β → Prop} {r' : α' → β' → Prop} {x : Except δ α}
  {y : Except ε β}

/-- Computations that come out alike can be continued alike. -/
theorem bind {k : α → Except δ α'} {k' : β → Except ε β'} (h : Alike r x y)
    (hk : ∀ a b, r a b → Alike r' (k a) (k' b)) : Alike r' (x >>= k) (y >>= k') := by
  cases x with
  | error e =>
    cases y with
    | error e' => trivial
    | ok b => exact h.elim
  | ok a =>
    cases y with
    | error e' => exact h.elim
    | ok b => exact hk a b h

/-- What one computation gives has a counterpart in the other. -/
theorem exists_right (h : Alike r x y) {a : α} (hx : x = .ok a) : ∃ b, y = .ok b ∧ r a b := by
  subst hx
  cases y with
  | error e => exact h.elim
  | ok b => exact ⟨b, rfl, h⟩

/-- Where the second computation succeeds the first one does. -/
theorem exists_left (h : Alike r x y) {b : β} (hy : y = .ok b) : ∃ a, x = .ok a ∧ r a b := by
  subst hy
  cases x with
  | error e => exact h.elim
  | ok a => exact ⟨a, rfl, h⟩

/-- Computations that come out like a third one come out alike. -/
theorem trans {γ ζ : Type} {z : Except ζ γ} {r₂ : β → γ → Prop} {r₃ : α → γ → Prop}
    (h : Alike r x y) (h₂ : Alike r₂ y z) (hr : ∀ a b c, r a b → r₂ b c → r₃ a c) :
    Alike r₃ x z := by
  cases x with
  | error e =>
    cases y with
    | error e' =>
      cases z with
      | error e'' => trivial
      | ok c => exact h₂.elim
    | ok b => exact h.elim
  | ok a =>
    obtain ⟨b, rfl, hab⟩ := h.exists_right rfl
    obtain ⟨c, rfl, hbc⟩ := h₂.exists_right rfl
    exact hr a b c hab hbc

/-- Computations come out alike if each succeeds where the other does. -/
theorem of_exists (hright : ∀ a, x = .ok a → ∃ b, y = .ok b ∧ r a b)
    (hleft : ∀ b, y = .ok b → ∃ a, x = .ok a) : Alike r x y := by
  cases x with
  | error e =>
    cases y with
    | error e' => trivial
    | ok b =>
      obtain ⟨a, ha⟩ := hleft b rfl
      cases ha
  | ok a =>
    obtain ⟨b, rfl, hab⟩ := hright a rfl
    exact hab

end Alike

namespace Expr

mutual

/-- The expression with all its parts at one place. -/
def unplaced : Expr → Expr
  | number z _ => number z .start
  | string s _ => string s .start
  | var c _ => var c .start
  | listVar n _ => listVar n .start
  | ans _ => ans .start
  | list es _ => list (unplacedAll es) .start
  | unary op e _ => unary op (unplaced e) .start
  | binary op l r _ => binary op (unplaced l) (unplaced r) .start
  | call f es _ => call f (unplacedAll es) .start

/-- Some expressions with all their parts at one place. -/
def unplacedAll : List Expr → List Expr
  | [] => []
  | e :: es => unplaced e :: unplacedAll es

end

/-- The link with all its parts at one place. -/
def Link.unplaced (l : Link) : Link := ⟨l.op, .start, l.operand.unplaced⟩

/-- The waiting operator with all its parts at one place. -/
def Pending.unplaced (w : Pending) : Pending := ⟨w.left.unplaced, w.op, .start⟩

/-- Joining waiting operators does not look at places. -/
private theorem reduce_unplaced (p : Nat) (waiting : List Pending) (e : Expr) :
    reduce p (waiting.map Pending.unplaced) e.unplaced =
      ((reduce p waiting e).1.map Pending.unplaced, (reduce p waiting e).2.unplaced) := by
  induction waiting generalizing e with
  | nil => rfl
  | cons w waiting ih =>
    rw [List.map_cons, reduce, reduce]
    by_cases hp : p ≤ w.op.priority
    · have hp' : p ≤ w.unplaced.op.priority := hp
      rw [if_pos hp, if_pos hp', ← ih]
      rfl
    · have hp' : ¬ p ≤ w.unplaced.op.priority := hp
      rw [if_neg hp, if_neg hp']
      rfl

/-- Assembling a tree does not look at places. -/
private theorem assembleFrom_unplaced (waiting : List Pending) (e : Expr) (links : List Link) :
    assembleFrom (waiting.map Pending.unplaced) e.unplaced (links.map Link.unplaced) =
      (assembleFrom waiting e links).unplaced := by
  induction links generalizing waiting e with
  | nil => exact congrArg Prod.snd (reduce_unplaced 0 waiting e)
  | cons l links ih =>
    rw [List.map_cons, assembleFrom, assembleFrom]
    have hreduce := reduce_unplaced l.op.priority waiting e
    simp only [Link.unplaced, hreduce]
    exact ih (⟨_, l.op, l.pos⟩ :: _) l.operand

/-- Chains that differ in places only have trees that differ in places only. -/
theorem unplaced_assemble {e e' : Expr} {links links' : List Link} (he : e'.unplaced = e.unplaced)
    (hlinks : links'.map Link.unplaced = links.map Link.unplaced) :
    (assemble e' links').unplaced = (assemble e links).unplaced := by
  have hassemble (e : Expr) (links : List Link) :
      (assemble e links).unplaced = assembleFrom [] e.unplaced (links.map Link.unplaced) :=
    (assembleFrom_unplaced [] e links).symm
  rw [hassemble, hassemble, he, hlinks]

/-- Trailing operators are taken by their symbols. -/
private theorem trailing_of_symbols {e e' : Expr} {ts ts' : List Token}
    (he : e'.unplaced = e.unplaced) (hts : symbols ts' = symbols ts) :
    (trailing e' ts').1.unplaced = (trailing e ts).1.unplaced ∧
      symbols (trailing e' ts').2 = symbols (trailing e ts).2 := by
  induction ts generalizing e e' ts' with
  | nil =>
    cases List.map_eq_nil_iff.mp hts
    exact ⟨he, rfl⟩
  | cons t ts ih =>
    cases ts' with
    | nil => cases hts
    | cons t' ts' =>
      obtain ⟨ht, hrest⟩ := List.cons.inj hts
      rw [trailing, trailing, ht]
      cases t.symbol with
      | unary op =>
        dsimp only
        split
        · exact ih (by rw [unplaced, unplaced, he]) hrest
        · exact ⟨he, hts⟩
      | _ => exact ⟨he, hts⟩

/-- A leaf is recognized by its symbol. -/
private theorem leaf_of_symbol {t t' : Token} {e : Expr} (h : Leaf t e)
    (ht : t'.symbol = t.symbol) : ∃ e', Leaf t' e' ∧ e'.unplaced = e.unplaced := by
  have hatom : atom? t = some e := by cases h <;> rfl
  have hmap : (atom? t').map unplaced = (atom? t).map unplaced := by
    unfold atom?
    rw [ht]
    cases t.symbol <;> rfl
  rw [hatom] at hmap
  obtain ⟨e', he', heq⟩ := Option.map_eq_some_iff.mp hmap
  exact ⟨e', leaf_of_atom? he', heq⟩

mutual

/-- Operands are read by their symbols. The recursion is that of the readers: on the number of
tokens, and for one number on the reader. -/
theorem reads_operand_of_symbols {blame : Option Token} {ts ts' rest : List Token} {e : Expr}
    (h : Parsed.Reads (readOperand blame ts) e rest) (hts : symbols ts' = symbols ts)
    (blame' : Option Token) :
    ∃ e' rest', Parsed.Reads (readOperand blame' ts') e' rest' ∧ e'.unplaced = e.unplaced ∧
      symbols rest' = symbols rest := by
  match ts, ts' with
  | [], _ => exact absurd h reads_operand_nil
  | t :: ts, t' :: ts' =>
    obtain ⟨ht', hts⟩ := List.cons.inj hts
    by_cases ht : t.IsSign
    · have hsign : t'.IsSign := by rwa [Token.IsSign, ht']
      obtain ⟨e₁, mid, links, he₁, hlinks, rfl⟩ := (reads_operand_sign ht).mp h
      have hmid := he₁.length_lt
      obtain ⟨e₁', mid', he₁', heq, hmid'⟩ := reads_operand_of_symbols he₁ hts (some t')
      obtain ⟨links', rest', hlinks', hlinksEq, hrest⟩ := reads_links_of_symbols hlinks hmid' true
      refine ⟨_, rest', (reads_operand_sign hsign).mpr ⟨e₁', mid', links', he₁', hlinks', rfl⟩,
        ?_, hrest⟩
      rw [unplaced, unplaced, unplaced_assemble heq hlinksEq]
    · have hsign : ¬ t'.IsSign := by rwa [Token.IsSign, ht']
      obtain ⟨e₁, mid, he₁, htrailing⟩ := (reads_operand_primary ht).mp h
      obtain ⟨e₁', mid', he₁', heq, hmid'⟩ := reads_primary_of_symbols he₁ ht' hts
      obtain ⟨hvalue, hrest⟩ := trailing_of_symbols heq hmid'
      rw [htrailing] at hvalue hrest
      exact ⟨_, _, (reads_operand_primary hsign).mpr ⟨e₁', mid', he₁', rfl⟩, hvalue, hrest⟩
termination_by (ts.length, 0)

/-- Links are read by their symbols. -/
theorem reads_links_of_symbols {accept : BinaryOp → Bool} {first : Bool} {ts ts' rest : List Token}
    {links : List Link} (h : ParsedMany.Reads (readLinks accept first ts) links rest)
    (hts : symbols ts' = symbols ts) (first' : Bool) :
    ∃ links' rest', ParsedMany.Reads (readLinks accept first' ts') links' rest' ∧
      links'.map Link.unplaced = links.map Link.unplaced ∧ symbols rest' = symbols rest := by
  match ts, ts' with
  | [], ts' =>
    cases List.map_eq_nil_iff.mp hts
    have hstop : Stops accept [] := by simp [Stops]
    obtain ⟨rfl, rfl⟩ := (reads_links_stop hstop).mp h
    exact ⟨[], [], (reads_links_stop hstop).mpr ⟨rfl, rfl⟩, rfl, rfl⟩
  | t :: ts, t' :: ts' =>
    have hsymbols := hts
    obtain ⟨ht', hts⟩ := List.cons.inj hts
    by_cases hstop : Stops accept (t :: ts)
    · have hstop' : Stops accept (t' :: ts') := by
        intro u hu op hop
        cases hu
        exact hstop t rfl op (ht' ▸ hop)
      obtain ⟨rfl, rfl⟩ := (reads_links_stop hstop).mp h
      exact ⟨[], t' :: ts', (reads_links_stop hstop').mpr ⟨rfl, rfl⟩, rfl, hsymbols⟩
    · have ⟨op, ht, hop⟩ : ∃ op, t.symbol = .binary op ∧ accept op = true := by
        simpa [Stops] using hstop
      obtain ⟨e, mid, more, he, hmore, rfl⟩ := (reads_links_cons ht hop).mp h
      have hmid := he.length_lt
      obtain ⟨e', mid', he', heq, hmid'⟩ :=
        reads_operand_of_symbols he hts (if first' then none else some t')
      obtain ⟨more', rest', hmore', hmoreEq, hrest⟩ := reads_links_of_symbols hmore hmid' false
      refine ⟨_, rest', (reads_links_cons (ht'.trans ht) hop).mpr ⟨e', mid', more', he', hmore', rfl⟩,
        ?_, hrest⟩
      rw [List.map_cons, List.map_cons, hmoreEq, Link.unplaced, Link.unplaced, heq]
termination_by (ts.length, 1)

/-- Chains are read by their symbols. -/
theorem reads_chain_of_symbols {blame : Option Token} {ts ts' rest : List Token} {e : Expr}
    (h : Parsed.Reads (readChain blame ts) e rest) (hts : symbols ts' = symbols ts)
    (blame' : Option Token) :
    ∃ e' rest', Parsed.Reads (readChain blame' ts') e' rest' ∧ e'.unplaced = e.unplaced ∧
      symbols rest' = symbols rest := by
  obtain ⟨e₁, mid, links, he₁, hlinks, htree⟩ := reads_chain.mp h
  have hmid := he₁.length_lt
  obtain ⟨e₁', mid', he₁', heq, hmid'⟩ := reads_operand_of_symbols he₁ hts blame'
  obtain ⟨links', rest', hlinks', hlinksEq, hrest⟩ := reads_links_of_symbols hlinks hmid' true
  refine ⟨assemble e₁' links', rest',
    reads_chain.mpr ⟨e₁', mid', links', he₁', hlinks', assemble_eq_iff.mp rfl⟩, ?_, hrest⟩
  rw [← assemble_eq_iff.mpr htree]
  exact unplaced_assemble heq hlinksEq
termination_by (ts.length, 2)

/-- Primaries are read by their symbols. -/
theorem reads_primary_of_symbols {t t' : Token} {ts ts' rest : List Token} {e : Expr}
    (h : ParsedMany.Reads (readPrimary t ts) e rest) (ht' : t'.symbol = t.symbol)
    (hts : symbols ts' = symbols ts) :
    ∃ e' rest', ParsedMany.Reads (readPrimary t' ts') e' rest' ∧ e'.unplaced = e.unplaced ∧
      symbols rest' = symbols rest := by
  rcases reads_primary_cases h with ht | ht | ⟨f, ht⟩ | ⟨hleaf, rfl⟩
  · obtain ⟨c, he, hc⟩ := (reads_primary_group ht).mp h
    obtain ⟨e', mid', he', heq, hmid'⟩ := reads_chain_of_symbols he hts (some t')
    cases mid' with
    | nil => cases hmid'
    | cons c' rest' =>
      obtain ⟨hc', hrest⟩ := List.cons.inj hmid'
      exact ⟨e', rest', (reads_primary_group (ht'.trans ht)).mpr ⟨c', he', hc'.trans hc⟩, heq, hrest⟩
  · obtain ⟨es, hes, rfl⟩ := (reads_primary_list ht).mp h
    obtain ⟨es', rest', hes', heq, hrest⟩ := reads_delimited_of_symbols (by simp) hes hts
    refine ⟨_, rest', (reads_primary_list (ht'.trans ht)).mpr ⟨es', hes', rfl⟩, ?_, hrest⟩
    rw [unplaced, unplaced, heq]
  · obtain ⟨es, hes, rfl⟩ := (reads_primary_call ht).mp h
    obtain ⟨es', rest', hes', heq, hrest⟩ := reads_delimited_of_symbols (by simp) hes hts
    refine ⟨_, rest', (reads_primary_call (ht'.trans ht)).mpr ⟨es', hes', rfl⟩, ?_, hrest⟩
    rw [unplaced, unplaced, heq]
  · obtain ⟨e', hleaf', heq⟩ := leaf_of_symbol hleaf ht'
    exact ⟨e', ts', reads_primary_leaf hleaf', heq, hts⟩
termination_by (ts.length, 5)

/-- Items are read by their symbols; what follows an item is a token in both lists, with the same
symbol. -/
theorem reads_items_of_symbols {closer : Symbol} {blame : Option Token} {ts ts' rest : List Token}
    {es : List Expr} (hcloser : closer ≠ .comma)
    (h : ParsedMany.Reads (readItems closer blame ts) es rest) (hts : symbols ts' = symbols ts)
    (blame' : Option Token) :
    ∃ es' rest', ParsedMany.Reads (readItems closer blame' ts') es' rest' ∧
      unplacedAll es' = unplacedAll es ∧ symbols rest' = symbols rest := by
  have hitem {e : Expr} {t : Token} {mid : List Token}
      (he : Parsed.Reads (readChain blame ts) e (t :: mid)) :
      ∃ e' t' mid', Parsed.Reads (readChain blame' ts') e' (t' :: mid') ∧ t'.symbol = t.symbol ∧
        e'.unplaced = e.unplaced ∧ symbols mid' = symbols mid := by
    obtain ⟨e', mid', he', heq, hmid'⟩ := reads_chain_of_symbols he hts blame'
    cases mid' with
    | nil => cases hmid'
    | cons t' mid' =>
      obtain ⟨ht', hmid'⟩ := List.cons.inj hmid'
      exact ⟨e', t', mid', he', ht', heq, hmid'⟩
  rcases (reads_items hcloser).mp h with ⟨e, t, he, ht, rfl⟩ | ⟨e, t, mid, more, he, ht, hmore, rfl⟩
  · obtain ⟨e', t', rest', he', ht', heq, hrest⟩ := hitem he
    refine ⟨[e'], rest', (reads_items hcloser).mpr (.inl ⟨e', t', he', ht'.trans ht, rfl⟩), ?_, hrest⟩
    simp only [unplacedAll, heq]
  · have hmid : mid.length < ts.length := Nat.lt_of_succ_lt he.length_lt
    obtain ⟨e', t', mid', he', ht', heq, hmid'⟩ := hitem he
    obtain ⟨more', rest', hmore', hmoreEq, hrest⟩ :=
      reads_items_of_symbols hcloser hmore hmid' (some t')
    refine ⟨e' :: more', rest', (reads_items hcloser).mpr
      (.inr ⟨e', t', mid', more', he', ht'.trans ht, hmore', rfl⟩), ?_, hrest⟩
    simp only [unplacedAll, heq, hmoreEq]
termination_by (ts.length, 3)

/-- Delimited expressions are read by their symbols. -/
theorem reads_delimited_of_symbols {closer : Symbol} {ts ts' rest : List Token} {es : List Expr}
    (hcloser : closer ≠ .comma) (h : ParsedMany.Reads (readDelimited closer ts) es rest)
    (hts : symbols ts' = symbols ts) :
    ∃ es' rest', ParsedMany.Reads (readDelimited closer ts') es' rest' ∧
      unplacedAll es' = unplacedAll es ∧ symbols rest' = symbols rest := by
  match ts, ts' with
  | [], _ => exact absurd h reads_delimited_nil
  | t :: ts, t' :: ts' =>
    have hsymbols := hts
    obtain ⟨ht', hts⟩ := List.cons.inj hts
    by_cases ht : t.symbol = closer
    · obtain ⟨rfl, rfl⟩ := (reads_delimited_close ht).mp h
      exact ⟨[], ts', (reads_delimited_close (ht'.trans ht)).mpr ⟨rfl, rfl⟩, rfl, hts⟩
    · have hclose : t'.symbol ≠ closer := ht' ▸ ht
      have h := (reads_delimited_items ht).mp h
      obtain ⟨es', rest', hes', heq, hrest⟩ := reads_items_of_symbols hcloser h hsymbols none
      exact ⟨es', rest', (reads_delimited_items hclose).mpr hes', heq, hrest⟩
termination_by (ts.length, 4)

end

/-- Both readings give trees that differ in places only, and leave the same symbols. -/
def SameParsed {ts ts' : List Token} (r : Parsed Expr ts) (r' : Parsed Expr ts') : Prop :=
  r'.value.unplaced = r.value.unplaced ∧ symbols r'.rest = symbols r.rest

/-- Chains come out alike for the same symbols. -/
theorem alike_readChain {ts ts' : List Token} (hts : symbols ts' = symbols ts)
    (blame blame' : Option Token) :
    Alike SameParsed (readChain blame ts) (readChain blame' ts') := by
  refine .of_exists (fun r hr => ?_) fun r' hr' => ?_
  · obtain ⟨e', rest', ⟨r', hr', rfl, rfl⟩, heq, hrest⟩ :=
      reads_chain_of_symbols ⟨r, hr, rfl, rfl⟩ hts blame'
    exact ⟨r', hr', heq, hrest⟩
  · obtain ⟨e, rest, ⟨r, hr, -, -⟩, -⟩ :=
      reads_chain_of_symbols ⟨r', hr', rfl, rfl⟩ hts.symm blame
    exact ⟨r, hr⟩

end Expr

/-- Lists with the same symbols are both empty, or begin with tokens of one symbol. -/
theorem Token.symbols_cases {ts ts' : List Token} (h : symbols ts' = symbols ts) :
    (ts = [] ∧ ts' = []) ∨ ∃ t us t' us', ts = t :: us ∧ ts' = t' :: us' ∧ t'.symbol = t.symbol ∧
      symbols us' = symbols us := by
  cases ts with
  | nil => exact .inl ⟨rfl, List.map_eq_nil_iff.mp h⟩
  | cons t us =>
    cases ts' with
    | nil => cases h
    | cons t' us' =>
      obtain ⟨ht, hus⟩ := List.cons.inj h
      exact .inr ⟨t, us, t', us', rfl, rfl, ht, hus⟩

/-- Expressions come out alike for the same symbols. -/
theorem Expr.alike_ofTokens {ts ts' : List Token} (hts : symbols ts' = symbols ts) :
    Alike (fun e e' => e'.unplaced = e.unplaced) (ofTokens ts) (ofTokens ts') := by
  refine (alike_readChain hts none none).bind ?_
  rintro ⟨e, rest, hshorter⟩ ⟨e', rest', hshorter'⟩ ⟨heq, hrest⟩
  rcases Token.symbols_cases hrest with ⟨rfl, rfl⟩ | ⟨t, us, t', us', rfl, rfl, -, -⟩
  · exact heq
  · trivial

/-- The instruction with all its parts at one place. -/
def Instruction.unplaced : Instruction → Instruction
  | cond e => cond e.unplaced
  | whileLoop e => whileLoop e.unplaced
  | repeatLoop e => repeatLoop e.unplaced
  | display es => display (Expr.unplacedAll es)
  | expression e target => expression e.unplaced target
  | i => i

namespace Statement

/-- The statement with all its parts at one place. -/
def unplaced (st : Statement) : Statement := ⟨st.instruction.unplaced, .start⟩

variable {ts ts' : List Token} {t t' : Token}

private theorem alike_expectEnd (hts : symbols ts' = symbols ts) :
    Alike (fun _ _ => True) (expectEnd ts) (expectEnd ts') := by
  rcases Token.symbols_cases hts with ⟨rfl, rfl⟩ | ⟨t, us, t', us', rfl, rfl, -, -⟩
  · trivial
  · trivial

private theorem alike_targetOf (ht : t'.symbol = t.symbol) :
    Alike Eq (targetOf t) (targetOf t') := by
  unfold targetOf
  rw [ht]
  cases t.symbol with
  | var c => rfl
  | list n => rfl
  | _ => trivial

private theorem alike_readTarget (hts : symbols ts' = symbols ts) (last last' : Token) :
    Alike Eq (readTarget last ts) (readTarget last' ts') := by
  rcases Token.symbols_cases hts with ⟨rfl, rfl⟩ | ⟨t, us, t', us', rfl, rfl, ht, hus⟩
  · trivial
  · refine (alike_targetOf ht).bind fun target target' heq => ?_
    exact (alike_expectEnd hus).bind fun _ _ _ => heq

/-- Conditions come out alike for the same symbols. -/
private theorem alike_readCondition (hts : symbols ts' = symbols ts) (word word' : Token) :
    Alike (fun e e' => e'.unplaced = e.unplaced) (readCondition word ts)
      (readCondition word' ts') := by
  rcases Token.symbols_cases hts with ⟨rfl, rfl⟩ | ⟨t, us, t', us', rfl, rfl, -, -⟩
  · trivial
  · exact Expr.alike_ofTokens hts

/-- Arguments come out alike for the same symbols. -/
private theorem alike_readArguments (hts : symbols ts' = symbols ts) :
    Alike (fun es es' => Expr.unplacedAll es' = Expr.unplacedAll es) (readArguments ts)
      (readArguments ts') := by
  induction hlength : ts.length using Nat.strongRecOn generalizing ts ts' with
  | ind length ih =>
    rw [readArguments, readArguments]
    have hempty : ts'.isEmpty = ts.isEmpty := by
      rcases Token.symbols_cases hts with ⟨rfl, rfl⟩ | ⟨t, us, t', us', rfl, rfl, -, -⟩
      · rfl
      · rfl
    rw [hempty]
    split
    · rfl
    · refine (Expr.alike_readChain hts none none).bind ?_
      rintro ⟨e, rest, hshorter⟩ ⟨e', rest', hshorter'⟩ ⟨heq, hrest⟩
      rcases Token.symbols_cases hrest with ⟨rfl, rfl⟩ | ⟨t, us, t', us', rfl, rfl, ht, hus⟩
      · simp only [Alike, pure, Except.pure, Expr.unplacedAll, heq]
      · dsimp only
        rw [ht]
        split
        · rcases Token.symbols_cases hus with ⟨rfl, rfl⟩ | ⟨u, vs, u', vs', rfl, rfl, -, -⟩
          · trivial
          · refine (ih _ ?_ hus rfl).bind fun more more' hmore => ?_
            · rw [← hlength]
              exact Nat.lt_of_succ_lt hshorter
            · simp only [Alike, pure, Except.pure, Expr.unplacedAll, heq, hmore]
        · trivial

/-- Targets come out alike for the same symbols. -/
private theorem alike_readTargets (hts : symbols ts' = symbols ts) (last last' : Token) :
    Alike Eq (readTargets last ts) (readTargets last' ts') := by
  fun_induction readTargets last ts generalizing last' ts' with
  | case1 =>
    cases List.map_eq_nil_iff.mp hts
    trivial
  | case2 last t =>
    rcases Token.symbols_cases hts with ⟨h, -⟩ | ⟨t, us, t', us', hcons, rfl, ht, hus⟩
    · cases h
    · cases hcons
      cases List.map_eq_nil_iff.mp hus
      exact (alike_targetOf ht).bind fun target target' heq => congrArg (fun t => [t]) heq
  | case3 last t c ts ih =>
    rcases Token.symbols_cases hts with ⟨h, -⟩ | ⟨t, us, t', us', hcons, rfl, ht, hus⟩
    · cases h
    · cases hcons
      rcases Token.symbols_cases hus with ⟨h, -⟩ | ⟨c, vs, c', vs', hcons, rfl, hc, hvs⟩
      · cases h
      · cases hcons
        refine (alike_targetOf ht).bind fun target target' heq => ?_
        rw [hc]
        split
        · refine (ih hvs c').bind fun more more' hmore => ?_
          rw [heq, hmore]
          rfl
        · trivial

/-- The two instructions differ in places only. -/
abbrev SameInstruction (i i' : Instruction) : Prop := i'.unplaced = i.unplaced

private theorem alike_readInput (hts : symbols ts' = symbols ts) (word word' : Token) :
    Alike SameInstruction (readInput word ts) (readInput word' ts') := by
  have hplain : Alike SameInstruction (do return .input "?" (← readTarget word ts))
      (do return .input "?" (← readTarget word' ts')) :=
    (alike_readTarget hts word word').bind fun target target' heq =>
      congrArg (Instruction.input "?") heq.symm
  rcases Token.symbols_cases hts with ⟨rfl, rfl⟩ | ⟨t, us, t', us', rfl, rfl, ht, hus⟩
  · exact hplain
  · obtain ⟨symbol, p⟩ := t
    obtain ⟨symbol', p'⟩ := t'
    cases ht
    cases symbol with
    | string s =>
      rcases Token.symbols_cases hus with ⟨rfl, rfl⟩ | ⟨c, vs, c', vs', rfl, rfl, hc, hvs⟩
      · trivial
      · dsimp only [readInput]
        rw [hc]
        split
        · exact (alike_readTarget hvs c c').bind fun target target' heq =>
            congrArg (Instruction.input s) heq.symm
        · trivial
    | _ => exact hplain

private theorem alike_readExpression (hts : symbols ts' = symbols ts) :
    Alike SameInstruction (readExpression ts) (readExpression ts') := by
  refine (Expr.alike_readChain hts none none).bind ?_
  rintro ⟨e, rest, hshorter⟩ ⟨e', rest', hshorter'⟩ ⟨heq, hrest⟩
  have hsame (target : Option Target) :
      SameInstruction (.expression e target) (.expression e' target) :=
    congrArg (Instruction.expression · target) heq
  rcases Token.symbols_cases hrest with ⟨rfl, rfl⟩ | ⟨t, us, t', us', rfl, rfl, ht, hus⟩
  · exact hsame none
  · dsimp only
    rw [ht]
    split
    · exact (alike_readTarget hus t t').bind fun target target' htarget => htarget ▸ hsame _
    · trivial

/-- Instructions come out alike for the same symbols. -/
private theorem alike_readInstruction (ht : t'.symbol = t.symbol) (hts : symbols ts' = symbols ts) :
    Alike SameInstruction (readInstruction t ts) (readInstruction t' ts') := by
  have hcondition (make : Expr → Instruction)
      (hmake : ∀ e e', e'.unplaced = e.unplaced → SameInstruction (make e) (make e')) :
      Alike SameInstruction (do return make (← readCondition t ts))
        (do return make (← readCondition t' ts')) :=
    (alike_readCondition hts t t').bind hmake
  have hword (i : Instruction) :
      Alike SameInstruction (do expectEnd ts; return i) (do expectEnd ts'; return i) :=
    (alike_expectEnd hts).bind fun _ _ _ => rfl
  have hexpression : Alike SameInstruction (readExpression (t :: ts)) (readExpression (t' :: ts')) :=
    alike_readExpression (by rw [Token.symbols_cons, Token.symbols_cons, ht, hts])
  unfold readInstruction
  rw [ht]
  cases t.symbol with
  | keyword k =>
    cases k with
    | cond => exact hcondition .cond fun e e' h => congrArg Instruction.cond h
    | whileLoop => exact hcondition .whileLoop fun e e' h => congrArg Instruction.whileLoop h
    | repeatLoop => exact hcondition .repeatLoop fun e e' h => congrArg Instruction.repeatLoop h
    | consequent => exact hword .consequent
    | alternative => exact hword .alternative
    | blockEnd => exact hword .blockEnd
    | stop => exact hword .stop
    | ret => exact hword .ret
    | display =>
      exact (alike_readArguments hts).bind fun es es' h => congrArg Instruction.display h
    | prompt =>
      exact (alike_readTargets hts t t').bind fun targets targets' h =>
        congrArg Instruction.prompt h.symm
    | input => exact alike_readInput hts t t'
  | program name => exact hword (.call name)
  | _ => exact hexpression

/-- The statements differ in places only. -/
abbrev SameStatements (ss ss' : List Statement) : Prop := ss'.map unplaced = ss.map unplaced

/-- The pieces of a program come out alike for the same symbols. -/
private theorem alike_ofPiece? (hts : symbols ts' = symbols ts) :
    Alike (fun s s' => SameStatements s.toList s'.toList) (ofPiece? ts) (ofPiece? ts') := by
  rcases Token.symbols_cases hts with ⟨rfl, rfl⟩ | ⟨t, us, t', us', rfl, rfl, ht, hus⟩
  · rfl
  · refine (alike_readInstruction ht hus).bind fun i i' h => ?_
    exact congrArg (fun i : Instruction => [(⟨i, .start⟩ : Statement)]) h

/-- The statements of some pieces of a program. -/
def ofPieces (pieces : List (List Token)) : Except ParseFault (List Statement) :=
  match readPieces pieces with
  | (_, some f) => .error f
  | (ss, none) => .ok ss

/-- A program is read piece by piece. -/
theorem ofTokens_eq_ofPieces (ts : List Token) : ofTokens ts = ofPieces (Token.statements ts) := rfl

/-- The first piece is read before the others. -/
theorem ofPieces_cons (piece : List Token) (pieces : List (List Token)) :
    ofPieces (piece :: pieces) = do
      let s ← ofPiece? piece
      let ss ← ofPieces pieces
      return s.toList ++ ss := by
  unfold ofPieces
  rw [readPieces]
  cases ofPiece? piece with
  | error f => rfl
  | ok s =>
    obtain ⟨ss, f⟩ := readPieces pieces
    cases f <;> rfl

/-- Statements come out alike for pieces with the same symbols. -/
theorem alike_ofPieces {pieces pieces' : List (List Token)}
    (h : pieces'.map symbols = pieces.map symbols) :
    Alike SameStatements (ofPieces pieces) (ofPieces pieces') := by
  induction pieces generalizing pieces' with
  | nil =>
    cases List.map_eq_nil_iff.mp h
    rfl
  | cons piece pieces ih =>
    cases pieces' with
    | nil => cases h
    | cons piece' pieces' =>
      obtain ⟨hpiece, hpieces⟩ := List.cons.inj h
      rw [ofPieces_cons, ofPieces_cons]
      refine (alike_ofPiece? hpiece).bind fun s s' hs => ?_
      refine (ih hpieces).bind fun ss ss' hss => ?_
      change (s'.toList ++ ss').map unplaced = (s.toList ++ ss).map unplaced
      rw [List.map_append, List.map_append, hs, hss]

/-- Some pieces are read before others. -/
theorem ofPieces_append (pieces more : List (List Token)) :
    ofPieces (pieces ++ more) = do
      let ss ← ofPieces pieces
      let ss' ← ofPieces more
      return ss ++ ss' := by
  induction pieces with
  | nil =>
    rw [List.nil_append]
    cases ofPieces more <;> rfl
  | cons piece pieces ih =>
    rw [List.cons_append, ofPieces_cons, ofPieces_cons, ih]
    cases ofPiece? piece with
    | error f => rfl
    | ok s =>
      cases ofPieces pieces with
      | error f => rfl
      | ok ss =>
        cases ofPieces more with
        | error f => rfl
        | ok ss' => exact congrArg Except.ok (List.append_assoc s.toList ss ss').symm

end Statement

end Handheld
