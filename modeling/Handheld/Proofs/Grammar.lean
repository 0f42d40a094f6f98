import Handheld.Statement.Parser
import Mathlib.Data.List.Induction

/-!
# The grammar of expressions

The expressions of the language as a grammar on token lists, and apart from it the tree of an
expression. The grammar alone allows two readings where a negation is followed by a power; the tree
is that of the reading in which a negation covers the longest chain of powers after it. A chain of
operands with operators between them has the rightmost of its loosest operators at its root.
-/

namespace Handheld

/-- The token is a sign in front of an operand. -/
def Token.IsSign (t : Token) : Prop :=
  t.symbol = .unary .negate ∨ t.symbol = .binary .subtract

/-- The operator is written after its operand. -/
def UnaryOp.IsPostfix (op : UnaryOp) : Prop := op = .square ∨ op = .inverse ∨ op = .factorial

/-- The binary operators, from those that bind loosest to those that bind tightest. -/
def BinaryOp.levels : List (List BinaryOp) :=
  [[.or, .xor], [.and], [.equal, .notEqual, .less, .greater, .lessEqual, .greaterEqual],
    [.add, .subtract], [.multiply, .divide], [.power]]

/-- How tightly a binary operator binds. -/
def BinaryOp.level (op : BinaryOp) : Nat := levels.findIdx (·.contains op)

namespace Expr

/-- The expressions that consist of one token. -/
inductive Leaf : Token → Expr → Prop
  | number (text : String) (x : Float) (p : Position) :
      Leaf ⟨.number text x, p⟩ (.number (.ofReal x) p)
  | imaginaryUnit (p : Position) : Leaf ⟨.imaginaryUnit, p⟩ (.number .imaginaryUnit p)
  | pi (p : Position) : Leaf ⟨.pi, p⟩ (.number (.ofReal Double.pi) p)
  | euler (p : Position) : Leaf ⟨.euler, p⟩ (.number (.ofReal Double.euler) p)
  | string (s : String) (p : Position) : Leaf ⟨.string s, p⟩ (.string s p)
  | ans (p : Position) : Leaf ⟨.ans, p⟩ (.ans p)
  | var (c : Char) (p : Position) : Leaf ⟨.var c, p⟩ (.var c p)
  | list (n : String) (p : Position) : Leaf ⟨.list n, p⟩ (.listVar n p)

/-- Trailing operators that wrap an expression one after the other. -/
inductive Trailed : Expr → List Token → Expr → Prop
  | nil {e : Expr} : Trailed e [] e
  | cons {e e' : Expr} {t : Token} {op : UnaryOp} {ts : List Token} (ht : t.symbol = .unary op)
      (hop : op.IsPostfix) (h : Trailed (.unary op e t.position) ts e') :
      Trailed e (t :: ts) e'

/-- The tree of a chain: at its root stands the rightmost of the operators that bind loosest. -/
inductive ChainTree : Expr → List Link → Expr → Prop
  | single {e : Expr} : ChainTree e [] e
  | split {first left right : Expr} {before after : List Link} {l : Link}
      (hbefore : ∀ k ∈ before, l.op.level ≤ k.op.level)
      (hafter : ∀ k ∈ after, l.op.level < k.op.level)
      (hleft : ChainTree first before left) (hright : ChainTree l.operand after right) :
      ChainTree first (before ++ l :: after) (.binary l.op left right l.pos)

/-- Applies the operator of a link to what stands before it. -/
def Link.after (e : Expr) (l : Link) : Expr := .binary l.op e l.operand l.pos

end Expr

namespace Grammar

mutual

/-- An operand and any number of binary operators, each with an operand. -/
inductive Expression : List Token → Prop
  | chain {ts us : List Token} (h : Operand ts) (hlinks : Links (fun _ => true) us) :
      Expression (ts ++ us)

/-- A sign, an operand and any number of powers; or a primary with trailing operators. -/
inductive Operand : List Token → Prop
  | negation {t : Token} {ts us : List Token} (ht : t.IsSign) (h : Operand ts)
      (hpowers : Links (· == .power) us) : Operand (t :: (ts ++ us))
  | trailed {ts us : List Token} (h : Primary ts)
      (hus : ∀ t ∈ us, ∃ op, t.symbol = .unary op ∧ op.IsPostfix) : Operand (ts ++ us)

/-- Any number of binary operators of some kind, each with an operand. -/
inductive Links : (BinaryOp → Bool) → List Token → Prop
  | nil {accept : BinaryOp → Bool} : Links accept []
  | cons {accept : BinaryOp → Bool} {t : Token} {op : BinaryOp} {ts us : List Token}
      (ht : t.symbol = .binary op) (hop : accept op = true) (h : Operand ts)
      (hus : Links accept us) : Links accept (t :: (ts ++ us))

/-- A single token, a group, a list literal or a call of a function. -/
inductive Primary : List Token → Prop
  | leaf {t : Token} {e : Expr} (h : Expr.Leaf t e) : Primary [t]
  | group {l r : Token} {ts : List Token} (hl : l.symbol = .leftParen) (h : Expression ts)
      (hr : r.symbol = .rightParen) : Primary (l :: (ts ++ [r]))
  | list {l r : Token} {ts : List Token} (hl : l.symbol = .leftBrace) (h : Items ts)
      (hr : r.symbol = .rightBrace) : Primary (l :: (ts ++ [r]))
  | call {f : String} {l r : Token} {ts : List Token} (hl : l.symbol = .function f) (h : Items ts)
      (hr : r.symbol = .rightParen) : Primary (l :: (ts ++ [r]))

/-- Expressions with commas between them, or nothing. -/
inductive Items : List Token → Prop
  | none : Items []
  | some {ts : List Token} (h : SomeItems ts) : Items ts

/-- At least one expression, with commas between them. -/
inductive SomeItems : List Token → Prop
  | one {ts : List Token} (h : Expression ts) : SomeItems ts
  | more {ts us : List Token} {t : Token} (h : Expression ts) (ht : t.symbol = .comma)
      (hmore : SomeItems us) : SomeItems (ts ++ t :: us)

end

end Grammar

namespace Tree

mutual

/-- The tokens form an expression with this tree. -/
inductive Expression : List Token → Expr → Prop
  | chain {negated : Bool} {ts us : List Token} {e tree : Expr} {links : List Expr.Link}
      (h : Operand negated ts e) (hlinks : Links negated us links)
      (htree : Expr.ChainTree e links tree) : Expression (ts ++ us) tree

/-- The tokens form an operand with this tree, which is a negation or not. -/
inductive Operand : Bool → List Token → Expr → Prop
  | negation {negated : Bool} {t : Token} {ts us : List Token} {e : Expr} {links : List Expr.Link}
      (ht : t.IsSign) (h : Operand negated ts e) (hlinks : Links negated us links)
      (hpowers : ∀ l ∈ links, l.op = .power) :
      Operand true (t :: (ts ++ us))
        (.unary .negate (links.foldl Expr.Link.after e) t.position)
  | trailed {ts us : List Token} {e e' : Expr} (h : Primary ts e) (hus : Expr.Trailed e us e') :
      Operand false (ts ++ us) e'

/-- The tokens form the links of a chain after an operand that is a negation or not. A power after a
negation belongs to the negation, so it is no link of the chain. -/
inductive Links : Bool → List Token → List Expr.Link → Prop
  | nil {negated : Bool} : Links negated [] []
  | cons {negated negated' : Bool} {t : Token} {op : BinaryOp} {ts us : List Token} {e : Expr}
      {links : List Expr.Link} (ht : t.symbol = .binary op)
      (hlongest : negated = true → op ≠ .power) (h : Operand negated' ts e)
      (hus : Links negated' us links) :
      Links negated (t :: (ts ++ us)) (⟨op, t.position, e⟩ :: links)

/-- The tokens form a primary with this tree; parentheses leave no trace. -/
inductive Primary : List Token → Expr → Prop
  | leaf {t : Token} {e : Expr} (h : Expr.Leaf t e) : Primary [t] e
  | group {l r : Token} {ts : List Token} {e : Expr} (hl : l.symbol = .leftParen)
      (h : Expression ts e) (hr : r.symbol = .rightParen) : Primary (l :: (ts ++ [r])) e
  | list {l r : Token} {ts : List Token} {es : List Expr} (hl : l.symbol = .leftBrace)
      (h : Items ts es) (hr : r.symbol = .rightBrace) :
      Primary (l :: (ts ++ [r])) (.list es l.position)
  | call {f : String} {l r : Token} {ts : List Token} {es : List Expr}
      (hl : l.symbol = .function f) (h : Items ts es) (hr : r.symbol = .rightParen) :
      Primary (l :: (ts ++ [r])) (.call f es l.position)

/-- The tokens form expressions with these trees, or nothing. -/
inductive Items : List Token → List Expr → Prop
  | none : Items [] []
  | some {ts : List Token} {es : List Expr} (h : SomeItems ts es) : Items ts es

/-- The tokens form at least one expression, with these trees. -/
inductive SomeItems : List Token → List Expr → Prop
  | one {ts : List Token} {e : Expr} (h : Expression ts e) : SomeItems ts [e]
  | more {ts us : List Token} {t : Token} {e : Expr} {es : List Expr} (h : Expression ts e)
      (ht : t.symbol = .comma) (hmore : SomeItems us es) : SomeItems (ts ++ t :: us) (e :: es)

end

end Tree

/-- The trailing operators are those that are written after their operand. -/
theorem UnaryOp.isTrailing_iff (op : UnaryOp) : op.isTrailing = true ↔ op.IsPostfix := by
  cases op <;> simp [isTrailing, IsPostfix]

/-- The levels are in the order of the priorities. -/
theorem BinaryOp.level_lt_iff {a b : BinaryOp} : a.level < b.level ↔ a.priority < b.priority := by
  have hlevel (op : BinaryOp) : op.level ≤ 5 ∧
      op.priority = if op.level = 5 then 70 else 10 * op.level + 10 := by
    cases op <;> decide
  obtain ⟨ha, ha'⟩ := hlevel a
  obtain ⟨hb, hb'⟩ := hlevel b
  rw [ha', hb']
  split <;> split <;> omega

/-- The levels are ordered like the priorities, equal ones included. -/
theorem BinaryOp.level_le_iff {a b : BinaryOp} : a.level ≤ b.level ↔ a.priority ≤ b.priority := by
  rw [← Nat.not_lt, ← Nat.not_lt, level_lt_iff]

namespace Expr

/-- Operators of lower priority leave the waiting ones alone. -/
theorem reduce_of_lt {p : Nat} {waiting : List Pending} (h : ∀ w ∈ waiting, w.op.priority < p)
    (e : Expr) : reduce p waiting e = (waiting, e) := by
  cases waiting with
  | nil => rfl
  | cons w ws => rw [reduce, if_neg (Nat.not_le.mpr (h w (List.mem_cons_self ..)))]

/-- A waiting operator gets its operand before one that does not bind tighter, and at the end. -/
theorem assembleFrom_pop {w : Pending} {waiting : List Pending} {e : Expr} {rest : List Link}
    (h : ∀ r ∈ rest.head?, r.op.priority ≤ w.op.priority) :
    assembleFrom (w :: waiting) e rest =
      assembleFrom waiting (.binary w.op w.left e w.pos) rest := by
  cases rest with
  | nil => rw [assembleFrom, reduce, if_pos (Nat.zero_le _), assembleFrom]
  | cons r rest => rw [assembleFrom, reduce, if_pos (h r rfl), assembleFrom]

/-- Assembling a chain in front of operators that do not bind tighter gives its tree to them. The
induction is on the tree; what waits from outside has lower priority than everything in it. -/
theorem ChainTree.assembleFrom_append {e tree : Expr} {links : List Link}
    (htree : ChainTree e links tree) {waiting : List Pending} {rest : List Link}
    (hwaiting : ∀ k ∈ links, ∀ w ∈ waiting, w.op.priority < k.op.priority)
    (hrest : ∀ r ∈ rest.head?, ∀ k ∈ links, r.op.priority ≤ k.op.priority) :
    assembleFrom waiting e (links ++ rest) = assembleFrom waiting tree rest := by
  induction htree generalizing waiting rest with
  | single => rfl
  | @split first left right before after l hbefore hafter hleft hright ihleft ihright =>
    have hl : l ∈ before ++ l :: after := by simp
    have hleft : assembleFrom waiting first (before ++ l :: (after ++ rest)) =
        assembleFrom waiting left (l :: (after ++ rest)) := by
      refine ihleft (fun k hk w hw => hwaiting k (by simp [hk]) w hw) fun r hr k hk => ?_
      rw [List.head?_cons, Option.mem_some_iff] at hr
      rw [← hr]
      exact BinaryOp.level_le_iff.mp (hbefore k hk)
    have hright : assembleFrom (⟨left, l.op, l.pos⟩ :: waiting) l.operand (after ++ rest) =
        assembleFrom (⟨left, l.op, l.pos⟩ :: waiting) right rest := by
      refine ihright (fun k hk w hw => ?_) fun r hr k hk => hrest r hr k (by simp [hk])
      rcases List.mem_cons.mp hw with rfl | hw
      · exact BinaryOp.level_lt_iff.mp (hafter k hk)
      · exact hwaiting k (by simp [hk]) w hw
    rw [List.append_assoc, List.cons_append, hleft, assembleFrom, reduce_of_lt (hwaiting l hl)]
    exact hright.trans (assembleFrom_pop fun r hr => hrest r hr l hl)

/-- The rightmost of the operators that bind loosest. -/
theorem exists_lowest {links : List Link} (h : links ≠ []) :
    ∃ before l after, links = before ++ l :: after ∧
      (∀ k ∈ before, l.op.level ≤ k.op.level) ∧
      ∀ k ∈ after, l.op.level < k.op.level := by
  induction links with
  | nil => exact absurd rfl h
  | cons k links ih =>
    by_cases hlinks : links = []
    · exact ⟨[], k, [], by rw [hlinks]; rfl, by simp, by simp⟩
    · obtain ⟨before, l, after, rfl, hbefore, hafter⟩ := ih hlinks
      by_cases hk : l.op.level ≤ k.op.level
      · refine ⟨k :: before, l, after, rfl, fun j hj => ?_, hafter⟩
        rcases List.mem_cons.mp hj with rfl | hj
        · exact hk
        · exact hbefore j hj
      · have hk : k.op.level < l.op.level := Nat.not_le.mp hk
        refine ⟨[], k, before ++ l :: after, rfl, by simp, fun j hj => ?_⟩
        rcases List.mem_append.mp hj with hj | hj
        · exact Nat.lt_of_lt_of_le hk (hbefore j hj)
        · rcases List.mem_cons.mp hj with rfl | hj
          · exact hk
          · exact Nat.lt_trans hk (hafter j hj)

/-- Every chain has a tree. -/
theorem exists_chainTree (e : Expr) (links : List Link) : ∃ tree, ChainTree e links tree := by
  induction h : links.length using Nat.strongRecOn generalizing e links with
  | ind n ih =>
    by_cases hlinks : links = []
    · exact ⟨e, hlinks ▸ .single⟩
    · obtain ⟨before, l, after, rfl, hbefore, hafter⟩ := exists_lowest hlinks
      simp only [List.length_append, List.length_cons] at h
      obtain ⟨left, hleft⟩ := ih before.length (by omega) e before rfl
      obtain ⟨right, hright⟩ := ih after.length (by omega) l.operand after rfl
      exact ⟨_, .split hbefore hafter hleft hright⟩

/-- A chain is assembled into its tree, and it has no other. -/
theorem assemble_eq_iff {e tree : Expr} {links : List Link} :
    assemble e links = tree ↔ ChainTree e links tree := by
  have hassemble {tree : Expr} (h : ChainTree e links tree) : assemble e links = tree := by
    have happend : assembleFrom [] e (links ++ []) = assembleFrom [] tree [] :=
      h.assembleFrom_append (by simp) (by simp)
    rwa [List.append_nil] at happend
  constructor
  · rintro rfl
    obtain ⟨tree, htree⟩ := exists_chainTree e links
    rwa [hassemble htree]
  · exact hassemble

/-- Operators of one level group to the left. -/
theorem assemble_of_level {links : List Link} {n : Nat} (h : ∀ l ∈ links, l.op.level = n)
    (e : Expr) : assemble e links = links.foldl Link.after e := by
  rw [assemble_eq_iff]
  induction links using List.reverseRecOn with
  | nil => exact .single
  | append_singleton links l ih =>
    rw [List.foldl_append]
    refine .split (fun k hk => ?_) (by simp) (ih fun k hk => h k (by simp [hk])) .single
    exact Nat.le_of_eq ((h l (by simp)).trans (h k (by simp [hk])).symm)

end Expr

namespace Tree

/-- Links begin with the longest chain of powers, and the others can follow a negation. -/
theorem Links.split_powers {negated : Bool} {us : List Token} {links : List Expr.Link}
    (h : Links negated us links) :
    ∃ us₁ us₂ links₁ links₂, us = us₁ ++ us₂ ∧ links = links₁ ++ links₂ ∧
      Links negated us₁ links₁ ∧ (∀ l ∈ links₁, l.op = .power) ∧ Links true us₂ links₂ := by
  cases h with
  | nil => exact ⟨[], [], [], [], rfl, rfl, .nil, by simp, .nil⟩
  | @cons _ negated' t op ts us e links ht hlongest h hus =>
    by_cases hop : op = .power
    · obtain ⟨us₁, us₂, links₁, links₂, rfl, rfl, hus₁, hpowers, hus₂⟩ :=
        Links.split_powers hus
      refine ⟨t :: (ts ++ us₁), us₂, _ :: links₁, links₂, by simp, rfl,
        .cons ht hlongest h hus₁, fun l hl => ?_, hus₂⟩
      rcases List.mem_cons.mp hl with rfl | hl
      · exact hop
      · exact hpowers l hl
    · exact ⟨[], _, [], _, rfl, rfl, .nil, by simp, .cons ht (fun _ => hop) h hus⟩

/-- The tokens of an operand and of any links after it can be divided anew, so that the links no
longer begin with a power where the operand is a negation. -/
def Joins (ts : List Token) : Prop :=
  ∀ (us : List Token) (links : List Expr.Link), Links false us links →
    ∃ negated ts' us' e links', ts ++ us = ts' ++ us' ∧ Operand negated ts' e ∧
      Links negated us' links' ∧
      ∀ accept : BinaryOp → Bool, accept .power = true → (∀ l ∈ links, accept l.op = true) →
        ∀ l ∈ links', accept l.op = true

mutual

/-- The tokens of an operand can be divided anew. The powers that the new links begin with are
covered by a negation, whether they were part of it before or not. -/
theorem Operand.joins {negated : Bool} {ts : List Token} {e : Expr} (h : Operand negated ts e) :
    Joins ts := by
  match h with
  | @Operand.negation negated t ts us₀ e links₀ ht h hlinks hpowers =>
    intro us links hus
    obtain ⟨negated', ts', us', e', links', heq, hts', hus', hkeep⟩ :=
      Links.joins hlinks h (Operand.joins h) hus
    obtain ⟨us₁, us₂, links₁, links₂, rfl, rfl, hus₁, hpowers₁, hus₂⟩ := hus'.split_powers
    refine ⟨true, t :: (ts' ++ us₁), us₂, _, links₂, by simp [heq], .negation ht hts' hus₁ hpowers₁,
      hus₂, fun accept hpower haccept l hl => ?_⟩
    exact hkeep accept hpower (fun k hk => by rw [hpowers k hk, hpower]) haccept l (by simp [hl])
  | .trailed h htrailed =>
    intro us links hus
    exact ⟨false, _, us, e, links, rfl, .trailed h htrailed, hus, fun _ _ haccept => haccept⟩

/-- The links after an operand can be divided anew with those that follow. Only the last operand can
be a negation with a power after it. -/
theorem Links.joins {negated : Bool} {ts us₀ us : List Token} {e : Expr}
    {links₀ links : List Expr.Link} (h₀ : Links negated us₀ links₀) (h : Operand negated ts e)
    (hjoins : Joins ts) (hus : Links false us links) :
    ∃ negated' ts' us' e' links', ts ++ (us₀ ++ us) = ts' ++ us' ∧ Operand negated' ts' e' ∧
      Links negated' us' links' ∧
      ∀ accept : BinaryOp → Bool, accept .power = true → (∀ l ∈ links₀, accept l.op = true) →
        (∀ l ∈ links, accept l.op = true) → ∀ l ∈ links', accept l.op = true := by
  match h₀ with
  | .nil =>
    obtain ⟨negated', ts', us', e', links', heq, hts', hus', hkeep⟩ := hjoins us links hus
    exact ⟨negated', ts', us', e', links', heq, hts', hus',
      fun accept hpower _ => hkeep accept hpower⟩
  | @Links.cons _ _ t op ts₁ us₁ e₁ links₁ ht hlongest h₁ hus₁ =>
    obtain ⟨negated', ts', us', e', links', heq, hts', hus', hkeep⟩ :=
      Links.joins hus₁ h₁ (Operand.joins h₁) hus
    refine ⟨negated, ts, t :: (ts' ++ us'), e, ⟨op, t.position, e'⟩ :: links', by simp [← heq], h,
      .cons ht hlongest hts' hus', fun accept hpower h₀ haccept l hl => ?_⟩
    rcases List.mem_cons.mp hl with rfl | hl
    · exact h₀ ⟨op, t.position, e₁⟩ (by simp)
    · exact hkeep accept hpower (fun k hk => h₀ k (by simp [hk])) haccept l hl

end

end Tree

/-- Trailing operators wrap every expression, and nothing else does. -/
theorem Expr.exists_trailed_iff {e : Expr} {ts : List Token} :
    (∃ e', Trailed e ts e') ↔ ∀ t ∈ ts, ∃ op, t.symbol = .unary op ∧ op.IsPostfix := by
  constructor
  · rintro ⟨e', h⟩
    induction h with
    | nil => simp
    | cons ht hop h ih =>
      intro t hmem
      rcases List.mem_cons.mp hmem with rfl | hmem
      · exact ⟨_, ht, hop⟩
      · exact ih t hmem
  · intro h
    induction ts generalizing e with
    | nil => exact ⟨e, .nil⟩
    | cons t ts ih =>
      obtain ⟨op, ht, hop⟩ := h t (by simp)
      obtain ⟨e', h'⟩ := @ih (.unary op e t.position) fun u hu => h u (by simp [hu])
      exact ⟨e', .cons ht hop h'⟩

namespace Grammar

mutual

/-- Every expression has a tree. The recursion is on the derivation; only the operands and links are
divided anew. -/
theorem Expression.exists_tree {ts : List Token} (h : Expression ts) :
    ∃ e, Tree.Expression ts e := by
  match h with
  | .chain h hlinks =>
    obtain ⟨negated, e, he⟩ := Operand.exists_tree h
    obtain ⟨links, hlinks, -⟩ := Links.exists_tree hlinks rfl
    obtain ⟨_, ts', us', e', links', heq, hts', hus', -⟩ := he.joins _ _ hlinks
    obtain ⟨tree, htree⟩ := Expr.exists_chainTree e' links'
    rw [heq]
    exact ⟨tree, .chain hts' hus' htree⟩

/-- Every operand has a tree. -/
theorem Operand.exists_tree {ts : List Token} (h : Operand ts) :
    ∃ negated e, Tree.Operand negated ts e := by
  match h with
  | .negation ht h hpowers =>
    obtain ⟨negated, e, he⟩ := Operand.exists_tree h
    obtain ⟨links, hlinks, haccept⟩ := Links.exists_tree hpowers rfl
    obtain ⟨_, ts', us', e', links', heq, hts', hus', hkeep⟩ := he.joins _ _ hlinks
    rw [heq]
    refine ⟨true, _, .negation ht hts' hus' fun l hl => ?_⟩
    exact beq_iff_eq.mp (hkeep (· == .power) rfl haccept l hl)
  | .trailed h hus =>
    obtain ⟨e, he⟩ := Primary.exists_tree h
    obtain ⟨e', he'⟩ := Expr.exists_trailed_iff.mpr hus
    exact ⟨false, e', .trailed he he'⟩

/-- All links of a kind that powers are of can be divided so that they have trees. -/
theorem Links.exists_tree {accept : BinaryOp → Bool} {us : List Token} (h : Links accept us)
    (hpower : accept .power = true) :
    ∃ links, Tree.Links false us links ∧ ∀ l ∈ links, accept l.op = true := by
  match h with
  | .nil => exact ⟨[], .nil, by simp⟩
  | .cons ht hop h hus =>
    obtain ⟨negated, e, he⟩ := Operand.exists_tree h
    obtain ⟨links, hlinks, haccept⟩ := Links.exists_tree hus hpower
    obtain ⟨_, ts', us', e', links', heq, hts', hus', hkeep⟩ := he.joins _ _ hlinks
    rw [heq]
    refine ⟨_, .cons ht (by simp) hts' hus', fun l hl => ?_⟩
    rcases List.mem_cons.mp hl with rfl | hl
    · exact hop
    · exact hkeep accept hpower haccept l hl

/-- Every primary has a tree. -/
theorem Primary.exists_tree {ts : List Token} (h : Primary ts) : ∃ e, Tree.Primary ts e := by
  match h with
  | .leaf h => exact ⟨_, .leaf h⟩
  | .group hl h hr =>
    obtain ⟨e, he⟩ := Expression.exists_tree h
    exact ⟨e, .group hl he hr⟩
  | .list hl h hr =>
    obtain ⟨es, hes⟩ := Items.exists_tree h
    exact ⟨_, .list hl hes hr⟩
  | .call hl h hr =>
    obtain ⟨es, hes⟩ := Items.exists_tree h
    exact ⟨_, .call hl hes hr⟩

/-- All items have trees. -/
theorem Items.exists_tree {ts : List Token} (h : Items ts) : ∃ es, Tree.Items ts es := by
  match h with
  | .none => exact ⟨[], .none⟩
  | .some h =>
    obtain ⟨es, hes⟩ := SomeItems.exists_tree h
    exact ⟨es, .some hes⟩

/-- All items have trees, where there is at least one. -/
theorem SomeItems.exists_tree {ts : List Token} (h : SomeItems ts) :
    ∃ es, Tree.SomeItems ts es := by
  match h with
  | .one h =>
    obtain ⟨e, he⟩ := Expression.exists_tree h
    exact ⟨[e], .one he⟩
  | .more h ht hmore =>
    obtain ⟨e, he⟩ := Expression.exists_tree h
    obtain ⟨es, hes⟩ := SomeItems.exists_tree hmore
    exact ⟨e :: es, .more he ht hes⟩

end

end Grammar

namespace Tree

mutual

/-- What has a tree is an expression. -/
theorem Expression.grammar {ts : List Token} {e : Expr} (h : Expression ts e) :
    Grammar.Expression ts := by
  match h with
  | .chain h hlinks _ =>
    exact .chain (Operand.grammar h) (Links.grammar hlinks fun _ _ => rfl)

/-- What has a tree is an operand. -/
theorem Operand.grammar {negated : Bool} {ts : List Token} {e : Expr} (h : Operand negated ts e) :
    Grammar.Operand ts := by
  match h with
  | .negation ht h hlinks hpowers =>
    exact .negation ht (Operand.grammar h)
      (Links.grammar hlinks fun l hl => beq_iff_eq.mpr (hpowers l hl))
  | .trailed h hus =>
    exact .trailed (Primary.grammar h) (Expr.exists_trailed_iff.mp ⟨_, hus⟩)

/-- What has trees are links. -/
theorem Links.grammar {negated : Bool} {us : List Token} {links : List Expr.Link}
    {accept : BinaryOp → Bool} (h : Links negated us links)
    (haccept : ∀ l ∈ links, accept l.op = true) : Grammar.Links accept us := by
  match h with
  | .nil => exact .nil
  | .cons ht _ h hus =>
    exact .cons ht (haccept _ (List.mem_cons_self ..)) (Operand.grammar h)
      (Links.grammar hus fun l hl => haccept l (List.mem_cons_of_mem _ hl))

/-- What has a tree is a primary. -/
theorem Primary.grammar {ts : List Token} {e : Expr} (h : Primary ts e) : Grammar.Primary ts := by
  match h with
  | .leaf h => exact .leaf h
  | .group hl h hr => exact .group hl (Expression.grammar h) hr
  | .list hl h hr => exact .list hl (Items.grammar h) hr
  | .call hl h hr => exact .call hl (Items.grammar h) hr

/-- What has trees are items. -/
theorem Items.grammar {ts : List Token} {es : List Expr} (h : Items ts es) : Grammar.Items ts := by
  match h with
  | .none => exact .none
  | .some h => exact .some (SomeItems.grammar h)

/-- What has trees are items, at least one. -/
theorem SomeItems.grammar {ts : List Token} {es : List Expr} (h : SomeItems ts es) :
    Grammar.SomeItems ts := by
  match h with
  | .one h => exact .one (Expression.grammar h)
  | .more h ht hmore => exact .more (Expression.grammar h) ht (SomeItems.grammar hmore)

end

end Tree

end Handheld
