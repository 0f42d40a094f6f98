import Handheld.Proofs.Pointwise
import Handheld.Proofs.Reading
import Handheld.Proofs.Rescan

/-!
# Numbers that are typed in

A number is typed as a term with an optional sign, and a tail: nothing, an imaginary unit that
multiplies it, or an imaginary term that is added to it or subtracted from it. Such a text is read
symbol by symbol without blanks, gets its products made explicit, has one tree, and evaluates to
what it says without touching anything.
-/

namespace Handheld

open Token (symbols)

/-- The operators between terms, with what they do to numbers. -/
inductive BinaryOp.Sums : BinaryOp → (Number → Number → Number) → Prop
  | add : Sums .add .add
  | subtract : Sums .subtract .sub

namespace BinaryOp.Sums

variable {op : BinaryOp} {f : Number → Number → Number}

/-- Sums and differences are always defined. -/
private theorem onNumbers (h : op.Sums f) (a b : Number) : op.onNumbers a b = .ok (f a b) := by
  cases h <;> rfl

private theorem ne_power (h : op.Sums f) : op ≠ .power := by
  cases h <;> nofun

private theorem level_lt_multiply (h : op.Sums f) : op.level < BinaryOp.multiply.level := by
  cases h <;> decide

end BinaryOp.Sums

namespace Numeral

/-- Neither a mantissa nor an exponent goes on with what comes. -/
def Breaks (rest : List Char) : Prop :=
  ∀ c ∈ rest.head?, Name.isDigit c = false ∧ c ≠ '.' ∧ c ≠ exponentMark

/-- Nothing goes on at the end of a text. -/
theorem breaks_nil : Breaks [] := fun _ hc => by cases hc

/-- Digits end where nothing goes on with them. -/
private theorem takeWhile_append_breaks {ds rest : List Char}
    (hds : ∀ c ∈ ds, Name.isDigit c = true)
    (hrest : Breaks rest) : (ds ++ rest).takeWhile Name.isDigit = ds := by
  rw [List.takeWhile_append_of_pos hds]
  cases rest with
  | nil => exact List.append_nil ds
  | cons c rest => rw [List.takeWhile_cons_of_neg (by rw [(hrest c rfl).1]; nofun), List.append_nil]

private theorem Proper.exponent_ne_nil {n : Numeral} (h : n.Proper) {e : Option Char × List Char}
    (he : n.exponent = some e) : e.2 ≠ [] := by
  obtain ⟨mantissa, _⟩ := n
  subst he
  have hformed : (!e.2.isEmpty) = true := h.wellFormed
  rintro hnil
  rw [hnil] at hformed
  cases hformed

/-- A proper numeral is read from a text that goes on with something else. -/
theorem Proper.scan_append_breaks {n : Numeral} (h : n.Proper) {rest : List Char}
    (hrest : Breaks rest) : scan (n.chars ++ rest) = n := by
  have hnext : ∀ c ∈ (exponentChars n.exponent ++ rest).head?,
      Name.isDigit c = false ∧ c ≠ '.' := by
    intro c hc
    cases he : n.exponent with
    | none =>
      rw [he] at hc
      exact ⟨(hrest c hc).1, (hrest c hc).2.1⟩
    | some e =>
      rw [he] at hc
      cases hc
      decide
  have hexponent : scanExponent (exponentChars n.exponent ++ rest) = n.exponent := by
    have hwritten := h.exponent
    match he : n.exponent with
    | none =>
      cases rest with
      | nil => rfl
      | cons c rest =>
        have hmark : (c == exponentMark) = false := beq_eq_false_iff_ne.mpr (hrest c rfl).2.2
        simp [exponentChars, scanExponent, hmark]
    | some (none, ds) =>
      rw [he] at hwritten
      have hdigits := takeWhile_append_breaks (hwritten _ rfl).digits hrest
      cases ds with
      | nil => exact absurd rfl (h.exponent_ne_nil he)
      | cons d ds =>
        have hminus := not_isMinus_of_isDigit ((hwritten _ rfl).digits d (by simp))
        rw [List.cons_append] at hdigits
        simp [exponentChars, scanExponent, hminus, hdigits]
    | some (some c, ds) =>
      rw [he] at hwritten
      have hdigits := takeWhile_append_breaks (hwritten _ rfl).digits hrest
      simp [exponentChars, scanExponent, (hwritten _ rfl).sign c rfl, hdigits]
  rw [scan, chars_eq, List.append_assoc, h.mantissa.scan_append hnext, List.drop_left, hexponent]

end Numeral

namespace Symbol

/-- The symbol is read from its spelling, with `rest` after it. -/
def ReadsBefore (s : Symbol) (rest : List Char) : Prop :=
  ∃ c cs, s.text.toList = c :: cs ∧ Token.isSpace c = false ∧ c ≠ '\n' ∧
    read c (cs ++ rest) = .ok (s, cs.length)

/-- A numeral is read as a number from its first character on, as far as it goes. -/
private theorem read_numeral {n : Numeral} (h : n.Proper) {rest : List Char}
    (hrest : Numeral.Breaks rest) : ∃ c cs, n.chars = c :: cs ∧ Token.isSpace c = false ∧ c ≠ '\n' ∧
      read c (cs ++ rest) = readNumber (n.chars ++ rest) ∧ Numeral.scan (n.chars ++ rest) = n := by
  obtain ⟨c, cs, hchars, hstarts⟩ := h.startsNumber
  have hne := ne_of_startsNumber (hstarts rest)
  refine ⟨c, cs, hchars, not_isSpace_of_startsNumber (hstarts []), hne '\n' rfl, ?_,
    h.scan_append_breaks hrest⟩
  rw [hchars]
  simp [read, hne '\n' rfl, hne '"' rfl, hstarts rest]

/-- A numeral with a value is read as that number. -/
theorem readsBefore_number {n : Numeral} (h : n.Proper) {v : Float} (hv : n.value? = some v)
    {rest : List Char} (hrest : Numeral.Breaks rest) :
    ReadsBefore (number (String.ofList n.chars) v) rest := by
  obtain ⟨c, cs, hchars, hspace, hline, hread, hscan⟩ := read_numeral h hrest
  refine ⟨c, cs, by simp [text, hchars], hspace, hline, ?_⟩
  rw [hread, readNumber, hscan, if_pos h.wellFormed, hv]
  simp [hchars]

/-- The imaginary unit at the end of a text is read as such. -/
theorem readsBefore_imaginaryUnit : ReadsBefore imaginaryUnit [] :=
  ⟨'i', [], rfl, rfl, by decide, by decide +kernel⟩

/-- No word goes on with what a number starts with. -/
private theorem endsWords_of_startsNumber {c : Char} {cs : List Char}
    (h : startsNumber c cs = true) : EndsWords c := by
  have hpart : (Name.isDigit c || c == '.') = true := by
    rw [startsNumber, Bool.or_eq_true, Bool.and_eq_true] at h
    exact Bool.or_eq_true _ _ ▸ h.imp_right (·.1)
  have htails : spellings.all (fun sp => sp.1.tail.all fun d => !(Name.isDigit d || d == '.')) =
      true := by
    decide +kernel
  have hprogram : programWord.tail.all (fun d => !(Name.isDigit d || d == '.')) = true := by
    decide +kernel
  constructor
  · intro sp hsp hmem
    have hnot := List.all_eq_true.mp (List.all_eq_true.mp htails sp hsp) c hmem
    rw [hpart] at hnot
    cases hnot
  · intro hmem
    have hnot := List.all_eq_true.mp hprogram c hmem
    rw [hpart] at hnot
    cases hnot

/-- What can come after a sign: something that no word goes on with, or the imaginary unit. -/
def FollowsSign (rest : List Char) : Prop := (∀ c ∈ rest.head?, EndsWords c) ∨ rest = ['i']

/-- A numeral can come after a sign. -/
theorem followsSign_numeral {n : Numeral} (h : n.Proper) (rest : List Char) :
    FollowsSign (n.chars ++ rest) := by
  obtain ⟨c, cs, hchars, hstarts⟩ := h.startsNumber
  refine .inl fun d hd => ?_
  rw [hchars] at hd
  cases hd
  exact endsWords_of_startsNumber (hstarts [])

/-- A sign is read as the operator between terms. -/
theorem readsBefore_sign {op : BinaryOp} {f : Number → Number → Number} (hop : op.Sums f)
    {rest : List Char} (hrest : FollowsSign rest) : ReadsBefore (binary op) rest := by
  have hmem : ∀ op ∈ [BinaryOp.add, .subtract],
      ((binary op).text.toList, binary op) ∈ spellings := by decide +kernel
  obtain hwords | rfl := hrest
  · obtain ⟨c, cs, htext, hspace, hread⟩ :=
      read_of_mem_spellings (hmem op (by cases hop <;> simp)) hwords
    refine ⟨c, cs, htext, hspace, ?_, hread⟩
    rintro rfl
    cases hop <;> cases htext
  · cases hop with
    | add => exact ⟨'+', [], rfl, rfl, by decide, by decide +kernel⟩
    | subtract => exact ⟨'-', [], rfl, rfl, by decide, by decide +kernel⟩

end Symbol

namespace Token

/-- The characters of some symbols, without blanks. -/
def spelled (ss : List Symbol) : List Char := ss.flatMap (·.text.toList)

/-- Each symbol is read where it stands, with `rest` after the last. -/
def Legible (rest : List Char) : List Symbol → Prop
  | [] => True
  | s :: ss => s.ReadsBefore (spelled ss ++ rest) ∧ Legible rest ss

/-- Legible symbols are read, and then what follows them. -/
theorem scanFrom_spelled {ss : List Symbol} {rest : List Char} (h : Legible rest ss) (p : Position) :
    ∃ q ts, symbols ts = ss ∧
      scanFrom p (spelled ss ++ rest) = (scanFrom q rest).map (ts ++ ·) := by
  induction ss generalizing p with
  | nil =>
    refine ⟨p, [], rfl, ?_⟩
    change scanFrom p rest = _
    cases scanFrom p rest <;> rfl
  | cons s ss ih =>
    obtain ⟨⟨c, cs, htext, hspace, hline, hread⟩, hss⟩ := h
    obtain ⟨q, ts, hts, hscan⟩ := ih hss (p.right (cs.length + 1))
    refine ⟨q, ⟨s, p⟩ :: ts, congrArg (s :: ·) hts, ?_⟩
    have hspelled : spelled (s :: ss) ++ rest = c :: (cs ++ (spelled ss ++ rest)) := by
      rw [spelled, List.flatMap_cons, htext, List.append_assoc]
      rfl
    rw [hspelled, scanFrom_symbol (Bool.not_eq_true _ ▸ hspace) hread, if_neg hline, List.drop_left,
      hscan]
    cases scanFrom q rest <;> rfl

/-- A text that spells legible symbols is scanned as those symbols. -/
theorem exists_scan_spelled {ss : List Symbol} (h : Legible [] ss) {text : String}
    (htext : text.toList = spelled ss) : ∃ ts, scan text = .ok ts ∧ symbols ts = ss := by
  obtain ⟨q, ts, hts, hscan⟩ := scanFrom_spelled h .start
  refine ⟨ts, ?_, hts⟩
  rw [scan, htext]
  rw [List.append_nil, scanFrom] at hscan
  rw [hscan]
  exact congrArg Except.ok (List.append_nil ts)

/-- A numeral beyond the largest double cannot be read, wherever it stands. -/
theorem exists_scan_tooLarge {ss : List Symbol} {n : Numeral} (hn : n.Proper)
    (hvalue : n.value? = none) {rest : List Char} (hrest : Numeral.Breaks rest)
    (h : Legible (n.chars ++ rest) ss) {text : String}
    (htext : text.toList = spelled ss ++ (n.chars ++ rest)) :
    ∃ p, scan text = .error ⟨.tooLarge (String.ofList n.chars), p⟩ := by
  obtain ⟨q, ts, -, hscan⟩ := scanFrom_spelled h .start
  obtain ⟨c, cs, hchars, hspace, -, hread, hnumeral⟩ := Symbol.read_numeral hn hrest
  have hfails : Symbol.read c (cs ++ rest) = .error (.tooLarge (String.ofList n.chars)) := by
    rw [hread, Symbol.readNumber, hnumeral, if_pos hn.wellFormed, hvalue]
  refine ⟨q, ?_⟩
  rw [scan, htext, hscan, hchars, List.cons_append, scanFrom, if_neg (Bool.not_eq_true _ ▸ hspace),
    hfails, hchars]
  rfl

end Token

namespace Typed

/-- A symbol that stands for a number. -/
inductive Term : Symbol → Number → Prop
  | number (text : String) (x : Float) : Term (.number text x) (.ofReal x)
  | unit : Term .imaginaryUnit .imaginaryUnit

/-- The symbols after the first term, what they are normalized to, and what they make of the
term. -/
inductive Tail : List Symbol → List Symbol → (Number → Number) → Prop
  | none : Tail [] [] id
  | product : Tail [.imaginaryUnit] [.binary .multiply, .imaginaryUnit] (·.mul .imaginaryUnit)
  | unit {op : BinaryOp} {f : Number → Number → Number} (hop : op.Sums f) :
      Tail [.binary op, .imaginaryUnit] [.binary op, .imaginaryUnit] (f · .imaginaryUnit)
  | term {op : BinaryOp} {f : Number → Number → Number} (hop : op.Sums f) (text : String)
      (x : Float) :
      Tail [.binary op, .number text x, .imaginaryUnit]
        [.binary op, .number text x, .binary .multiply, .imaginaryUnit]
        (f · ((Number.ofReal x).mul .imaginaryUnit))

/-- The sign before the first term. -/
def signSymbols (negative : Bool) : List Symbol := if negative then [.binary .subtract] else []

/-- The characters of that sign. -/
def signChars (negative : Bool) : List Char := if negative then ['-'] else []

/-- The sign before the first term is spelled as such. -/
theorem spelled_signSymbols (negative : Bool) (ss : List Symbol) :
    Token.spelled (signSymbols negative ++ ss) = signChars negative ++ Token.spelled ss := by
  cases negative <;> rfl

/-- The first term with its sign. -/
def signed (negative : Bool) (z : Number) : Number := if negative then z.neg else z

variable {negative : Bool} {s : Symbol} {z : Number} {raw normal : List Symbol}
  {f : Number → Number}

/-- A sign before legible symbols leaves them legible. -/
theorem legible_signSymbols {ss : List Symbol} {rest : List Char} (h : Token.Legible rest ss)
    (hnext : Symbol.FollowsSign (Token.spelled ss ++ rest)) (negative : Bool) :
    Token.Legible rest (signSymbols negative ++ ss) := by
  cases negative with
  | false => exact h
  | true => exact ⟨Symbol.readsBefore_sign .subtract hnext, h⟩

/-- Symbols without brackets, after `last`, are normalized to these symbols. -/
def NormalAfter (last : Option Symbol) (raw normal : List Symbol) : Prop :=
  ∀ (l : Option Token) (ts : List Token), l.map (·.symbol) = last → symbols ts = raw →
    ∃ out, Token.normalizeFrom l [] ts = .ok out ∧ symbols out = normal

private theorem normalAfter_nil (last : Option Symbol) : NormalAfter last [] [] := by
  intro l ts _ hts
  rw [List.map_eq_nil_iff.mp hts]
  cases l with
  | none => exact ⟨[], rfl, rfl⟩
  | some l => exact ⟨[], rfl, rfl⟩

/-- A symbol that is no bracket and no factor is kept. -/
private theorem NormalAfter.cons {last : Option Symbol} (h : NormalAfter (some s) raw normal)
    (hs : Token.bracketing [] s = .ok ([], []))
    (hlast : last.any (Token.impliesProduct · s) = false) :
    NormalAfter last (s :: raw) (s :: normal) := by
  rintro l ts rfl hts
  obtain ⟨t, us, rfl, rfl, hus⟩ := List.map_eq_cons_iff.mp hts
  obtain ⟨out, hout, rfl⟩ := h (some t) us rfl hus
  rw [Option.any_map] at hlast
  refine ⟨t :: out, ?_, rfl⟩
  rw [Token.normalizeFrom, hs]
  simp only [hout]
  rw [if_neg (Bool.not_eq_true _ ▸ hlast)]
  rfl

/-- Before a factor a product is written out. -/
private theorem NormalAfter.cons_product {l : Symbol} (h : NormalAfter (some s) raw normal)
    (hs : Token.bracketing [] s = .ok ([], [])) (hl : Token.impliesProduct l s = true) :
    NormalAfter (some l) (s :: raw) (.binary .multiply :: s :: normal) := by
  intro l ts hlast hts
  obtain ⟨l, rfl, rfl⟩ := Option.map_eq_some_iff.mp hlast
  obtain ⟨t, us, rfl, rfl, hus⟩ := List.map_eq_cons_iff.mp hts
  obtain ⟨out, hout, rfl⟩ := h (some t) us rfl hus
  refine ⟨⟨.binary .multiply, t.position⟩ :: t :: out, ?_, rfl⟩
  rw [Token.normalizeFrom, hs]
  simp only [hout]
  rw [if_pos (by exact hl)]
  rfl

/-- What follows the first term is normalized with its products written out. -/
theorem Tail.normalAfter (h : Tail raw normal f) {l : Symbol} (hl : l.endsValue = true) :
    NormalAfter (some l) raw normal := by
  have hunit : Symbol.imaginaryUnit.isNumber = false := rfl
  have hproduct : Token.impliesProduct l .imaginaryUnit = true := by
    rw [Token.impliesProduct, hl, hunit, Bool.and_false]
    rfl
  have hsum (op : BinaryOp) : Token.impliesProduct l (.binary op) = false := by
    rw [Token.impliesProduct, hl]
    rfl
  cases h with
  | none => exact normalAfter_nil _
  | product => exact (normalAfter_nil _).cons_product rfl hproduct
  | unit => exact ((normalAfter_nil _).cons rfl rfl).cons rfl (hsum _)
  | term => exact (((normalAfter_nil _).cons_product rfl rfl).cons rfl rfl).cons rfl (hsum _)

/-- A signed term with what follows it is normalized with its products written out. -/
theorem normalize_typed (hs : Term s z) (h : Tail raw normal f) {ts : List Token}
    (hts : symbols ts = signSymbols negative ++ s :: raw) :
    ∃ out, Token.normalize ts = .ok out ∧ symbols out = signSymbols negative ++ s :: normal := by
  have hplain : Token.bracketing [] s = .ok ([], []) := by
    cases hs <;> rfl
  have hends : s.endsValue = true := by
    cases hs <;> rfl
  have htail := h.normalAfter hends
  cases negative with
  | false => exact (htail.cons hplain rfl) none ts rfl hts
  | true =>
    have hterm : NormalAfter (some (.binary .subtract)) (s :: raw) (s :: normal) :=
      htail.cons hplain rfl
    exact (hterm.cons rfl rfl) none ts rfl hts

/-- The action gives this number and changes nothing that can be seen. -/
def Gives (a : Action (Option Value)) (z : Number) : Prop :=
  ∀ w : World, Outcome.seen (a w) = .ok (some (.number z)) w.scene

private theorem gives_pure (z : Number) : Gives (pure (some (.number z))) z := fun _ => rfl

/-- An action that uses a number can use one that was given. -/
private theorem Gives.bind {a : Action (Option Value)} {g : Option Value → Action (Option Value)}
    {y : Number} (ha : Gives a z) (hg : Gives (g (some (.number z))) y) : Gives (a >>= g) y := by
  intro w
  have hseen := ha w
  change Outcome.seen (EStateM.bind a g w) = _
  unfold EStateM.bind
  cases hrun : a w with
  | error f w' =>
    rw [hrun] at hseen
    cases hseen
  | ok v w' =>
    rw [hrun] at hseen
    injection hseen with hv hw
    rw [hv, ← hw]
    exact hg w'

/-- Recording what an expression gives does not change it. -/
private theorem Gives.produce {a : Action (Option Value)} (h : Gives a z) (e : Expr) :
    Gives (e.produce a) z := h.bind (gives_pure z)

/-- A number gives itself. -/
private theorem gives_number (z : Number) (p : Position) :
    Gives ((Expr.number z p).eval Builtin.registry) z := by
  rw [Expr.eval]
  exact gives_pure z

/-- A negation gives the negated number. -/
private theorem gives_negate {e : Expr} (h : Gives (e.eval Builtin.registry) z) (p : Position) :
    Gives ((Expr.unary .negate e p).eval Builtin.registry) z.neg := by
  have hnegate : Builtin.registry["‾"]? = some (.unary "‾" fun z => .ok z.neg) :=
    Builtin.getElem?_eq_unary_iff.mpr ⟨rfl, by simp [Builtin.unaryFunctions]⟩
  rw [Expr.eval]
  refine h.bind (Gives.produce (fun w => ?_) _)
  exact Builtin.seen_run_unary hnegate (.number z) w

/-- An operator between two numbers gives what it makes of them. -/
private theorem gives_binary {op : BinaryOp} {y x : Number} (hop : op.onNumbers z y = .ok x)
    {e e' : Expr} (h : Gives (e.eval Builtin.registry) z) (h' : Gives (e'.eval Builtin.registry) y)
    (p : Position) : Gives ((Expr.binary op e e' p).eval Builtin.registry) x := by
  rw [Expr.eval]
  refine h.bind (h'.bind (Gives.produce (fun w => ?_) _))
  rw [Builtin.seen_run_binary, BinaryOp.apply, Value.broadcast, hop]
  rfl

private theorem operand_of_leaf {t : Token} {e : Expr} (h : Expr.Leaf t e) :
    Tree.Operand false [t] e :=
  .trailed (.leaf h) .nil

/-- A link with one token for its operand can stand before other links. -/
private theorem links_cons_leaf {op : BinaryOp} {p : Position} {t : Token} {e : Expr}
    {ts : List Token} {links : List Expr.Link} (hop : op ≠ .power) (hleaf : Expr.Leaf t e)
    (h : Tree.Links false ts links) (negated : Bool) :
    Tree.Links negated (⟨.binary op, p⟩ :: t :: ts) (⟨op, p, e⟩ :: links) :=
  .cons rfl (fun _ => hop) (operand_of_leaf hleaf) h

/-- A link whose operator is weaker than all that follow takes their tree for its right operand. -/
private theorem chainTree_cons {op : BinaryOp} {p : Position} {e e' tree : Expr}
    {links : List Expr.Link}
    (hlinks : ∀ k ∈ links, op.level < k.op.level) (h : Expr.ChainTree e' links tree) :
    Expr.ChainTree e (⟨op, p, e'⟩ :: links) (.binary op e tree p) :=
  @Expr.ChainTree.split e e tree [] links ⟨op, p, e'⟩ nofun hlinks .single h

/-- What follows a term has a tree, which gives what it makes of the number before it. -/
private theorem Tail.exists_tree (h : Tail raw normal f) {ts : List Token}
    (hts : symbols ts = normal)
    {e : Expr} (he : Gives (e.eval Builtin.registry) z) (negated : Bool) :
    ∃ links tree, Tree.Links negated ts links ∧ Expr.ChainTree e links tree ∧
      Gives (tree.eval Builtin.registry) (f z) := by
  have hmultiply : BinaryOp.multiply ≠ .power := nofun
  have honMultiply (a b : Number) : BinaryOp.multiply.onNumbers a b = .ok (a.mul b) := rfl
  cases h with
  | none =>
    rw [List.map_eq_nil_iff.mp hts]
    exact ⟨[], e, .nil, .single, he⟩
  | product =>
    obtain ⟨⟨_, p⟩, us, rfl, rfl, hus⟩ := List.map_eq_cons_iff.mp hts
    obtain ⟨⟨_, q⟩, vs, rfl, rfl, hvs⟩ := List.map_eq_cons_iff.mp hus
    rw [List.map_eq_nil_iff.mp hvs]
    exact ⟨_, _, links_cons_leaf hmultiply (.imaginaryUnit q) .nil negated,
      chainTree_cons (List.forall_mem_nil _) .single,
      gives_binary (honMultiply z _) he (gives_number _ q) p⟩
  | unit hop =>
    obtain ⟨⟨_, p⟩, us, rfl, rfl, hus⟩ := List.map_eq_cons_iff.mp hts
    obtain ⟨⟨_, q⟩, vs, rfl, rfl, hvs⟩ := List.map_eq_cons_iff.mp hus
    rw [List.map_eq_nil_iff.mp hvs]
    exact ⟨_, _, links_cons_leaf hop.ne_power (.imaginaryUnit q) .nil negated,
      chainTree_cons (List.forall_mem_nil _) .single,
      gives_binary (hop.onNumbers _ _) he (gives_number _ q) p⟩
  | term hop text x =>
    obtain ⟨⟨_, p⟩, us, rfl, rfl, hus⟩ := List.map_eq_cons_iff.mp hts
    obtain ⟨⟨_, q⟩, vs, rfl, rfl, hvs⟩ := List.map_eq_cons_iff.mp hus
    obtain ⟨⟨_, r⟩, xs, rfl, rfl, hxs⟩ := List.map_eq_cons_iff.mp hvs
    obtain ⟨⟨_, i⟩, ys, rfl, rfl, hys⟩ := List.map_eq_cons_iff.mp hxs
    rw [List.map_eq_nil_iff.mp hys]
    have hproduct := gives_binary (honMultiply (.ofReal x) .imaginaryUnit) (gives_number _ q)
      (gives_number _ i) r
    refine ⟨_, _, links_cons_leaf hop.ne_power (.number text x q)
      (links_cons_leaf hmultiply (.imaginaryUnit i) .nil false) negated,
      chainTree_cons ?_ (chainTree_cons (List.forall_mem_nil _) .single),
      gives_binary (hop.onNumbers _ _) he hproduct p⟩
    intro k hk
    rw [List.mem_singleton.mp hk]
    exact hop.level_lt_multiply

/-- A signed term with what follows it has a tree, which gives the number that it stands for. -/
theorem exists_tree (hs : Term s z) (h : Tail raw normal f) {ts : List Token}
    (hts : symbols ts = signSymbols negative ++ s :: normal) :
    ∃ tree, Tree.Expression ts tree ∧ Gives (tree.eval Builtin.registry) (f (signed negative z)) := by
  have hleaf (p : Position) : Expr.Leaf ⟨s, p⟩ (.number z p) := by
    cases hs with
    | number text x => exact .number text x p
    | unit => exact .imaginaryUnit p
  cases negative with
  | false =>
    obtain ⟨⟨_, p⟩, us, rfl, rfl, hus⟩ := List.map_eq_cons_iff.mp hts
    obtain ⟨links, tree, hlinks, htree, hgives⟩ := h.exists_tree hus (gives_number z p) false
    exact ⟨tree, .chain (operand_of_leaf (hleaf p)) hlinks htree, hgives⟩
  | true =>
    obtain ⟨⟨_, p⟩, us, rfl, rfl, hus⟩ := List.map_eq_cons_iff.mp hts
    obtain ⟨⟨_, q⟩, vs, rfl, rfl, hvs⟩ := List.map_eq_cons_iff.mp hus
    obtain ⟨links, tree, hlinks, htree, hgives⟩ :=
      h.exists_tree hvs (gives_negate (gives_number z q) p) true
    have hsign : (⟨.binary .subtract, p⟩ : Token).IsSign := .inr rfl
    exact ⟨tree, .chain (.negation hsign (operand_of_leaf (hleaf q)) .nil nofun) hlinks htree,
      hgives⟩

end Typed

/-- The tokens that a text is parsed from have the symbols that normalization decided on. -/
theorem Program.exists_normalizedTokens {text : String} {ts out : List Token}
    (hscan : Token.scan text = .ok ts) (hnormal : Token.normalize ts = .ok out) :
    ∃ ts', normalizedTokens text = .ok ts' ∧ symbols ts' = symbols out := by
  obtain ⟨ts', hscan', hsymbols⟩ :=
    Token.scanFrom_written (readsBack_of_normalize hscan hnormal) Position.start
  rw [← Token.toList_render_eq_written] at hscan'
  refine ⟨ts', ?_, hsymbols⟩
  rw [normalizedTokens, normalizedText_eq_ok_iff.mpr ⟨ts, out, hscan, hnormal, rfl⟩]
  exact congrArg (Except.mapError Fault.lex) hscan'

namespace Typed

variable {negative : Bool} {s : Symbol} {z : Number} {raw normal : List Symbol}
  {f : Number → Number}

/-- A text with the symbols of a number gives that number. -/
theorem gives_evalText (hs : Term s z) (h : Tail raw normal f)
    (hlegible : Token.Legible [] (signSymbols negative ++ s :: raw)) {text : String}
    (htext : text.toList = Token.spelled (signSymbols negative ++ s :: raw)) :
    Gives (Expr.evalText Builtin.registry text) (f (signed negative z)) := by
  obtain ⟨ts, hscan, hts⟩ := Token.exists_scan_spelled hlegible htext
  obtain ⟨out, hnormal, hout⟩ := normalize_typed hs h hts
  obtain ⟨ts', htokens, hts'⟩ := Program.exists_normalizedTokens hscan hnormal
  obtain ⟨tree, htree, hgives⟩ := exists_tree hs h (hts'.trans hout)
  have hparse : Program.parseExpression text = .ok tree := by
    rw [Program.parseExpression, htokens]
    exact congrArg (Except.mapError Fault.parse) (Expr.ofTokens_eq_ok_iff_tree.mpr htree)
  rw [Expr.evalText, hparse]
  exact hgives

/-- A text that cannot be read gives the fault of its reading. -/
theorem seen_evalText_of_scan_error {text : String} {f : LexFault}
    (hscan : Token.scan text = .error f) (w : World) :
    Outcome.seen (Expr.evalText Builtin.registry text w) = .error (.lex f) w.scene := by
  have hparse : Program.parseExpression text = .error (.lex f) := by
    rw [Program.parseExpression, Program.normalizedTokens, Program.normalizedText, hscan]
    rfl
  rw [Expr.evalText, hparse]
  rfl

end Typed

end Handheld
