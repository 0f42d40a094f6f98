import Handheld.Proofs.Agreement
import Handheld.Proofs.DecimalText
import Handheld.Proofs.Terms

/-!
# Numbers that are typed back

The text of a number is made of the signs, numerals and imaginary unit that a number is typed with,
so it can be typed in again. Ten digits do not determine a double, and the number that comes back
may be another one; but it has the same text. The largest doubles are the exception: their ten
digits are rounded up beyond the range of the doubles, and such a numeral cannot be read.
-/

namespace Handheld

open Float.Model (UnpackedFloat Format)
open Float.Model.UnpackedFloat (Sign)

namespace Double

private theorem Agree.beq_zero {x : Float} (h : Agree x 0) : (x == 0) = true := h.beq_zero_eq

/-- A double agrees with another if its parts were like those of the other before they were
packed. -/
private theorem agree_of_stored {x y : Float} {u : UnpackedFloat} (hx : parts x = stored u)
    (h : AlikeParts u (parts y)) : Agree x y := by
  apply agree_of_alikeParts
  rw [hx, ← stored_parts y]
  exact alikeParts_stored h

/-- A zero changes at most the sign of a zero. -/
theorem alikeParts_zero (u : UnpackedFloat) :
    AlikeParts (u.add Format.binary64 (.zero .positive)) u ∧
      AlikeParts (UnpackedFloat.add Format.binary64 (.zero .positive) u) u ∧
      AlikeParts (u.sub Format.binary64 (.zero .positive)) u ∧
      AlikeParts (UnpackedFloat.sub Format.binary64 (.zero .positive) u) u.neg := by
  have hzeros (s t : Sign) : AlikeParts (.zero s) (.zero t) := .inr ⟨s, t, rfl, rfl⟩
  rcases u with s | _ | s | _
  · exact ⟨.inl rfl, .inl rfl, .inl rfl, .inl rfl⟩
  · exact ⟨.inl rfl, .inl rfl, .inl rfl, .inl rfl⟩
  · cases s <;> exact ⟨hzeros _ _, hzeros _ _, hzeros _ _, hzeros _ _⟩
  · exact ⟨.inl rfl, .inl rfl, .inl rfl, .inl rfl⟩

/-- Adding zero changes a double at most in the sign of a zero. -/
private theorem agree_add_zero (x : Float) : Agree (x + 0) x :=
  agree_of_stored (parts_add x 0) (alikeParts_zero (parts x)).1

/-- Adding a double to zero changes it at most in the sign of a zero. -/
private theorem agree_zero_add (x : Float) : Agree (0 + x) x :=
  agree_of_stored (parts_add 0 x) (alikeParts_zero (parts x)).2.1

/-- Subtracting zero changes a double at most in the sign of a zero. -/
private theorem agree_sub_zero (x : Float) : Agree (x - 0) x :=
  agree_of_stored (parts_sub x 0) (alikeParts_zero (parts x)).2.2.1

/-- Subtracting from zero negates a double, up to the sign of a zero. -/
private theorem agree_zero_sub (x : Float) : Agree (0 - x) (-x) := by
  apply agree_of_stored (parts_sub 0 x)
  rw [parts_neg]
  exact (alikeParts_zero (parts x)).2.2.2

private theorem size_one : size 1 = 1 := by decide +kernel

private theorem measures_one : Measures .positive 1 (parts 1) :=
  size_one ▸ measures_of_pos (by decide +kernel) rfl

/-- Multiplying by one changes no finite double. -/
private theorem mul_one_of_isFinite {x : Float} (h : x.isFinite = true) : x * 1 = x := by
  obtain ⟨s, hx⟩ := measures_of_isFinite h
  have hproduct := nearest_mul hx measures_one
  rw [mul_one] at hproduct
  have hsign : s * .positive = s := by cases s <;> rfl
  have hmeasures := hproduct.measures hx.lt_limit
  rw [hx.rounded_eq, hsign] at hmeasures
  exact hmeasures.unique hx rfl

/-- Multiplying a finite double by zero gives a zero. -/
private theorem agree_mul_zero {x : Float} (h : x.isFinite = true) : Agree (x * 0) 0 := by
  apply agree_of_stored (parts_mul x 0)
  rw [isFinite_eq_parts] at h
  rcases hx : parts x with s | _ | s | _
  · rw [hx] at h
    cases h
  · rw [hx] at h
    cases h
  · exact .inr ⟨_, _, rfl, rfl⟩
  · exact .inr ⟨_, _, rfl, rfl⟩

/-- The double is finite and above zero. -/
def Positive (x : Float) : Prop := ∃ m e hm, parts x = .finite .positive m e hm

/-- The double with a sign in front. -/
def withSign (negative : Bool) (x : Float) : Float := if negative then -x else x

/-- A double of positive size without a minus is positive. -/
theorem Measures.positive {x : Float} {v : ℚ} (h : Measures .positive v (parts x)) (hv : 0 < v) :
    Positive x := by
  unfold Positive
  generalize parts x = u at h ⊢
  cases h with
  | zero => exact absurd hv (lt_irrefl 0)
  | finite hm => exact ⟨_, _, hm, rfl⟩

theorem positive_one : Positive 1 := measures_one.positive one_pos

namespace Positive

variable {x : Float}

/-- A positive double measures its size. -/
theorem measures (h : Positive x) : Measures .positive (size x) (parts x) := by
  obtain ⟨m, e, hm, hx⟩ := h
  rw [size, hx]
  exact .finite hm

/-- A positive double has a positive size. -/
theorem size_pos (h : Positive x) : 0 < size x := by
  obtain ⟨m, e, hm, hx⟩ := h
  rw [size, hx]
  positivity

/-- A sign in front of a positive double changes its sign alone. -/
private theorem exists_parts_withSign (h : Positive x) (negative : Bool) :
    ∃ m e hm, parts x = .finite .positive m e hm ∧
      parts (withSign negative x) =
        .finite (if negative then .negative else .positive) m e hm := by
  obtain ⟨m, e, hm, hx⟩ := h
  refine ⟨m, e, hm, hx, ?_⟩
  cases negative with
  | false => exact hx
  | true =>
    rw [withSign, if_pos rfl, parts_neg, hx]
    rfl

/-- A positive double is finite with either sign. -/
theorem isFinite_withSign (h : Positive x) (negative : Bool) :
    (withSign negative x).isFinite = true := by
  obtain ⟨m, e, hm, -, hsigned⟩ := h.exists_parts_withSign negative
  rw [isFinite_eq_parts, hsigned]
  rfl

/-- A positive double is not zero with either sign. -/
theorem beq_zero_withSign (h : Positive x) (negative : Bool) :
    (withSign negative x == 0) = false := by
  obtain ⟨m, e, hm, -, hsigned⟩ := h.exists_parts_withSign negative
  rw [beq_eq_parts, hsigned]
  cases negative <;> rfl

/-- A positive double with a sign is below zero exactly if the sign is a minus. -/
theorem withSign_lt_zero_iff (h : Positive x) (negative : Bool) :
    withSign negative x < 0 ↔ negative = true := by
  obtain ⟨m, e, hm, -, hsigned⟩ := h.exists_parts_withSign negative
  rw [lt_iff_parts, hsigned, parts_zero]
  cases negative with
  | false => exact ⟨nofun, nofun⟩
  | true => exact ⟨fun _ => rfl, fun _ => rfl⟩

/-- The absolute value drops the sign in front. -/
theorem abs_withSign (h : Positive x) (negative : Bool) : (withSign negative x).abs = x := by
  obtain ⟨m, e, hm, hx, hsigned⟩ := h.exists_parts_withSign negative
  apply parts_injective
  rw [parts_abs, hsigned, hx]
  rfl

/-- The text of a double with a sign. -/
theorem realText_withSign (h : Positive x) (negative : Bool) :
    Number.realText (withSign negative x) = Typed.signChars negative ++ Number.realText x := by
  obtain ⟨m, e, hm, hx, hsigned⟩ := h.exists_parts_withSign negative
  unfold parts at hx hsigned
  rw [Number.realText, Number.realText, hx, hsigned]
  cases negative <;> rfl

end Positive

/-- A finite double is a zero, or a positive one with a sign. -/
theorem zero_or_withSign {x : Float} (h : x.isFinite = true) :
    Agree x 0 ∧ size x = 0 ∨
      ∃ negative a, Positive a ∧ x = withSign negative a ∧ size x = size a := by
  rw [isFinite_eq_parts] at h
  cases hx : parts x with
  | notANumber =>
    rw [hx] at h
    cases h
  | infinity s =>
    rw [hx] at h
    cases h
  | zero s =>
    refine .inl ⟨.inl (beq_zero_iff_parts.mpr ⟨s, hx⟩), ?_⟩
    rw [size, hx]
  | finite s m e hm =>
    have habs : parts x.abs = .finite .positive m e hm := by
      rw [parts_abs, hx]
      rfl
    have hsize : size x = size x.abs := by
      rw [size, size, hx, habs]
    refine .inr ⟨s == .negative, x.abs, ⟨m, e, hm, habs⟩, parts_injective ?_, hsize⟩
    cases s with
    | positive => exact hx.trans habs.symm
    | negative =>
      change _ = parts (-x.abs)
      rw [parts_neg, hx, habs]
      rfl

end Double

namespace Number

open Double

/-- A product with the imaginary unit is a quarter turn. -/
theorem agree_mul_imaginaryUnit {z : Number} (hre : z.re.isFinite = true)
    (him : z.im.isFinite = true) : Agree (z.mul imaginaryUnit) ⟨-z.im, z.re⟩ := by
  constructor
  · change Double.Agree (z.re * 0 - z.im * 1) (-z.im)
    rw [mul_one_of_isFinite him]
    exact ((agree_mul_zero hre).sub (.refl _)).trans (agree_zero_sub _)
  · change Double.Agree (z.re * 1 + z.im * 0) z.re
    rw [mul_one_of_isFinite hre]
    exact ((Double.Agree.refl _).add (agree_mul_zero him)).trans (agree_add_zero _)

/-- A sign before a real number is a sign before its double. -/
theorem agree_signed_ofReal (negative : Bool) (x : Float) :
    Agree (Typed.signed negative (ofReal x)) (ofReal (withSign negative x)) := by
  cases negative with
  | false => exact .refl _
  | true => exact ⟨agree_zero_sub x, agree_sub_zero 0⟩

/-- A sign before the imaginary unit is a sign before its one. -/
private theorem agree_signed_imaginaryUnit (negative : Bool) :
    Agree (Typed.signed negative imaginaryUnit) ⟨0, withSign negative 1⟩ := by
  cases negative with
  | false => exact .refl _
  | true => exact ⟨.inl rfl, agree_zero_sub 1⟩

/-- The doubles have the same text in every place of a number. -/
structure SameText (x y : Float) : Prop where
  zero : (x == 0) = (y == 0)
  negative : x < 0 ↔ y < 0
  text : realText x = realText y
  magnitude : realText x.abs = realText y.abs

/-- Doubles that agree have the same text. -/
theorem sameText_of_agree {x y : Float} (h : Double.Agree x y) : SameText x y where
  zero := h.beq_zero_eq
  negative := h.lt_iff (.refl 0)
  text := h.congr rfl
  magnitude := by rw [h.abs_eq]

private theorem SameText.trans {x y u : Float} (h : SameText x y) (h' : SameText y u) :
    SameText x u where
  zero := h.zero.trans h'.zero
  negative := h.negative.trans h'.negative
  text := h.text.trans h'.text
  magnitude := h.magnitude.trans h'.magnitude

/-- Positive doubles with the same digits have the same text behind the same sign. -/
theorem sameText_withSign {x y : Float} (hx : Positive x) (hy : Positive y)
    (h : realText x = realText y) (negative : Bool) :
    SameText (withSign negative x) (withSign negative y) where
  zero := (hx.beq_zero_withSign negative).trans (hy.beq_zero_withSign negative).symm
  negative := (hx.withSign_lt_zero_iff negative).trans (hy.withSign_lt_zero_iff negative).symm
  text := by rw [hx.realText_withSign, hy.realText_withSign, h]
  magnitude := by rw [hx.abs_withSign, hy.abs_withSign, h]

/-- Parts with the same text make numbers with the same text. -/
theorem text_eq_of_sameText {a b : Number} (hre : SameText a.re b.re) (him : SameText a.im b.im) :
    a.text = b.text := by
  simp only [text, chars, imaginaryText, hre.zero, hre.text, him.zero, him.negative, him.magnitude]

end Number

namespace Typed

open Double
open Number (Agree realText imaginaryText SameText)

variable {a b y : Float} {n : Numeral} {raw normal : List Symbol} {f : Number → Number}

/-- The numeral is the text of `a`, and the text of the double `y` that it is read as. -/
structure Retyped (a : Float) (n : Numeral) (y : Float) : Prop where
  proper : n.Proper
  chars : n.chars = realText a
  value : n.value? = some y
  positive : Positive y
  text : realText y = realText a

/-- A positive double up to the reading limit can be typed again. -/
theorem exists_retyped (ha : Positive a) (h : size a ≤ Scientific.readLimit) :
    ∃ n y, Retyped a n y := by
  obtain ⟨n, hproper, hchars, hread, -⟩ := Number.exists_numeral_realText ha.measures ha.size_pos
  obtain ⟨y, v, hvalue, hmeasures, hv, htext⟩ := hread h
  exact ⟨n, y, hproper, hchars, hvalue, hmeasures.positive hv, htext⟩

/-- The symbol of a numeral. -/
def numberSymbol (n : Numeral) (y : Float) : Symbol := .number (String.ofList n.chars) y

/-- A typed numeral is spelled as the text of the double. -/
theorem Retyped.spelled_cons (h : Retyped a n y) (ss : List Symbol) :
    Token.spelled (numberSymbol n y :: ss) = realText a ++ Token.spelled ss := by
  rw [Token.spelled, List.flatMap_cons, ← h.chars]
  simp [numberSymbol, Symbol.text, Token.spelled]

/-- A typed numeral is read where it stands if what follows does not go on with it. -/
theorem Retyped.legible_cons (h : Retyped a n y) {ss : List Symbol} {rest : List Char}
    (hss : Token.Legible rest ss) (hbreaks : Numeral.Breaks (Token.spelled ss ++ rest)) :
    Token.Legible rest (numberSymbol n y :: ss) :=
  ⟨Symbol.readsBefore_number h.proper h.value hbreaks, hss⟩

/-- A text that starts with a numeral gives what the numeral is read as, and what its tail makes of
it. -/
theorem Retyped.gives_evalText (h : Retyped a n y) (htail : Tail raw normal f)
    (hraw : Token.Legible [] raw) (hbreaks : Numeral.Breaks (Token.spelled raw)) (negative : Bool)
    {text : String} (htext : text.toList = signChars negative ++ (realText a ++ Token.spelled raw)) :
    Gives (Expr.evalText Builtin.registry text) (f (signed negative (.ofReal y))) := by
  have hterm : Term (numberSymbol n y) (.ofReal y) := .number _ y
  have hlegible : Token.Legible [] (numberSymbol n y :: raw) :=
    h.legible_cons hraw (by rwa [List.append_nil])
  have hnext : Symbol.FollowsSign (Token.spelled (numberSymbol n y :: raw) ++ []) := by
    rw [h.spelled_cons, ← h.chars, List.append_assoc]
    exact Symbol.followsSign_numeral h.proper _
  apply Typed.gives_evalText hterm htail (legible_signSymbols hlegible hnext negative)
  rw [htext, spelled_signSymbols, h.spelled_cons]

/-- A text with a numeral of one of the largest doubles is refused there. -/
theorem exists_refused (ha : Positive a) (hlarge : Scientific.readLimit < size a)
    {rest : List Char} (hrest : Numeral.Breaks rest) (ss : List Symbol)
    (hss : Symbol.FollowsSign (realText a ++ rest) → Token.Legible (realText a ++ rest) ss)
    {text : String} (htext : text.toList = Token.spelled ss ++ (realText a ++ rest)) (w : World) :
    ∃ p, Outcome.seen (Expr.evalText Builtin.registry text w) =
      .error (.lex ⟨.tooLarge "1.797693135ᴇ308", p⟩) w.scene := by
  obtain ⟨n, hproper, hchars, -, hlast⟩ :=
    Number.exists_numeral_realText ha.measures ha.size_pos
  obtain ⟨hvalue, hshown⟩ := hlast hlarge
  rw [← hchars] at hss htext
  obtain ⟨p, hscan⟩ := Token.exists_scan_tooLarge hproper hvalue hrest
    (hss (Symbol.followsSign_numeral hproper rest)) htext
  rw [hshown] at hscan
  exact ⟨p, seen_evalText_of_scan_error hscan w⟩

/-- A unit coefficient is left out. -/
theorem imaginaryText_withSign (hb : Positive b) (negative : Bool) :
    imaginaryText (withSign negative b) =
      (if realText b = ['1'] then [] else realText b) ++ ['i'] := by
  rw [imaginaryText, hb.abs_withSign]

private theorem legible_imaginaryUnit : Token.Legible [] [.imaginaryUnit] :=
  ⟨Symbol.readsBefore_imaginaryUnit, trivial⟩

private theorem breaks_imaginaryUnit : Numeral.Breaks ['i'] := by
  intro c hc
  cases hc
  decide

private theorem breaks_sign (negative : Bool) (cs : List Char) :
    Numeral.Breaks ((if negative then '-' else '+') :: cs) := by
  intro c hc
  cases hc
  cases negative <;> decide

private theorem realText_one : realText 1 = ['1'] := by decide +kernel

/-- A sum with an imaginary number, by the sign of its imaginary part. -/
theorem exists_sums (negative : Bool) :
    ∃ op g, op.Sums g ∧ (Symbol.binary op).text.toList = [if negative then '-' else '+'] ∧
      ∀ {z z' : Number} {x y : Float}, Agree z (.ofReal x) → Agree z' ⟨0, y⟩ →
        Agree (g z z') ⟨x, withSign negative y⟩ := by
  cases negative with
  | false =>
    refine ⟨.add, .add, .add, rfl, fun hz hz' => ⟨?_, ?_⟩⟩
    · exact (hz.re.add hz'.re).trans (agree_add_zero _)
    · exact (hz.im.add hz'.im).trans (agree_zero_add _)
  | true =>
    refine ⟨.subtract, .sub, .subtract, rfl, fun hz hz' => ⟨?_, ?_⟩⟩
    · exact (hz.re.sub hz'.re).trans (agree_sub_zero _)
    · exact (hz.im.sub hz'.im).trans (agree_zero_sub _)

/-- A double times the imaginary unit. -/
theorem agree_mul_unit {z : Number} {x : Float} (hz : Agree z (.ofReal x))
    (hx : x.isFinite = true) : Agree (z.mul .imaginaryUnit) ⟨0, x⟩ := by
  have hzero : (0 : Float).isFinite = true := by decide +kernel
  have hturn := Number.agree_mul_imaginaryUnit (z := .ofReal x) hx hzero
  have hproduct := hz.mul (.refl .imaginaryUnit)
  exact ⟨(hproduct.re.trans hturn.re).trans agree_zeros.symm, hproduct.im.trans hturn.im⟩

/-- A term of a sum is read as an imaginary number with the same text. -/
theorem exists_tail (hb : Positive b) (h : size b ≤ Scientific.readLimit) (negative : Bool) :
    ∃ raw normal f, Tail raw normal f ∧ Token.Legible [] raw ∧
      Token.spelled raw = (if negative then '-' else '+') :: imaginaryText (withSign negative b) ∧
      ∃ y, Positive y ∧ realText y = realText b ∧
        ∀ {z : Number} {x : Float}, Agree z (.ofReal x) → Agree (f z) ⟨x, withSign negative y⟩ := by
  obtain ⟨op, g, hop, htext, hsum⟩ := exists_sums negative
  rw [imaginaryText_withSign hb]
  by_cases hunit : realText b = ['1']
  · refine ⟨_, _, _, .unit hop, ⟨Symbol.readsBefore_sign hop (.inr rfl), legible_imaginaryUnit⟩, ?_,
      1, positive_one, realText_one.trans hunit.symm, fun hz => hsum hz (.refl _)⟩
    rw [Token.spelled, List.flatMap_cons, htext, if_pos hunit]
    rfl
  · obtain ⟨n, y, hn⟩ := exists_retyped hb h
    have hlegible : Token.Legible [] [numberSymbol n y, .imaginaryUnit] :=
      hn.legible_cons legible_imaginaryUnit breaks_imaginaryUnit
    have hnext : Symbol.FollowsSign (Token.spelled [numberSymbol n y, .imaginaryUnit] ++ []) := by
      rw [hn.spelled_cons, ← hn.chars, List.append_assoc]
      exact Symbol.followsSign_numeral hn.proper _
    refine ⟨_, _, _, .term hop _ y, ⟨Symbol.readsBefore_sign hop hnext, hlegible⟩, ?_,
      y, hn.positive, hn.text, fun hz => hsum hz (agree_mul_unit (.refl _) ?_)⟩
    · rw [Token.spelled, List.flatMap_cons, htext, if_neg hunit]
      change _ :: Token.spelled [numberSymbol n y, .imaginaryUnit] = _
      rw [hn.spelled_cons]
      rfl
    · exact hn.positive.isFinite_withSign false

variable {z : Number} {negative minus : Bool}

/-- The text of a real number is its sign and the text of its real part. -/
private theorem toList_text_of_re (hre : z.re = withSign negative a) (ha : Positive a)
    (him : Double.Agree z.im 0) : z.text.toList = signChars negative ++ (realText a ++ []) := by
  rw [Number.text, String.toList_ofList, Number.chars, if_pos him.beq_zero, hre,
    ha.realText_withSign, List.append_nil]

/-- The text of an imaginary number is its sign and the text of its imaginary part. -/
private theorem toList_text_of_im (hre : Double.Agree z.re 0) (him : z.im = withSign minus b)
    (hb : Positive b) : z.text.toList = signChars minus ++ imaginaryText (withSign minus b) := by
  rw [Number.text, String.toList_ofList, Number.chars, him,
    if_neg (Bool.eq_false_iff.mp (hb.beq_zero_withSign minus)), if_pos hre.beq_zero]
  simp only [hb.withSign_lt_zero_iff]
  cases minus <;> rfl

/-- The text of any other number is that of both parts, with the second sign between them. -/
private theorem toList_text_of_both (hre : z.re = withSign negative a) (ha : Positive a)
    (him : z.im = withSign minus b) (hb : Positive b) :
    z.text.toList = signChars negative ++
      (realText a ++ (if minus then '-' else '+') :: imaginaryText (withSign minus b)) := by
  rw [Number.text, String.toList_ofList, Number.chars, hre, him,
    if_neg (Bool.eq_false_iff.mp (hb.beq_zero_withSign minus)),
    if_neg (Bool.eq_false_iff.mp (ha.beq_zero_withSign negative)), ha.realText_withSign,
    List.append_assoc]
  simp only [hb.withSign_lt_zero_iff]

/-- The text of the number gives a number with the same text. -/
def Returns (z : Number) : Prop :=
  ∃ z', Gives (Expr.evalText Builtin.registry z.text) z' ∧ z'.text = z.text

/-- A text that gives a number with parts of the same text returns. -/
theorem returns_of_sameText {z' u : Number} (h : Gives (Expr.evalText Builtin.registry z.text) z')
    (hu : Agree z' u) (hre : SameText u.re z.re) (him : SameText u.im z.im) : Returns z :=
  ⟨z', h, Number.text_eq_of_sameText ((Number.sameText_of_agree hu.re).trans hre)
    ((Number.sameText_of_agree hu.im).trans him)⟩

/-- The text of zero returns. -/
theorem returns_of_zero (hre : Double.Agree z.re 0) (him : Double.Agree z.im 0) : Returns z := by
  have hre' : SameText 0 z.re := Number.sameText_of_agree hre.symm
  have him' : SameText 0 z.im := Number.sameText_of_agree him.symm
  have htext : z.text.toList = Token.spelled (signSymbols false ++ [.number "0" 0]) := by
    rw [Number.text, String.toList_ofList, Number.chars, if_pos him.beq_zero, ← hre'.text]
    rfl
  have hread : Symbol.ReadsBefore (.number "0" 0) [] :=
    ⟨'0', [], rfl, rfl, by decide, by decide +kernel⟩
  have hlegible : Token.Legible [] (signSymbols false ++ [.number "0" 0]) := ⟨hread, trivial⟩
  have hgives := Typed.gives_evalText (.number "0" 0) .none hlegible htext
  exact returns_of_sameText hgives (.refl _) hre' him'

/-- The text of a real number up to the reading limit returns. -/
theorem returns_of_re (hre : z.re = withSign negative a) (ha : Positive a)
    (him : Double.Agree z.im 0) (hsize : size a ≤ Scientific.readLimit) : Returns z := by
  obtain ⟨n, y, hn⟩ := exists_retyped ha hsize
  have hgives := hn.gives_evalText .none trivial Numeral.breaks_nil negative (toList_text_of_re hre ha him)
  refine returns_of_sameText hgives (Number.agree_signed_ofReal negative y) ?_
    (Number.sameText_of_agree him.symm)
  rw [hre]
  exact Number.sameText_withSign hn.positive ha hn.text negative

/-- The text of an imaginary number up to the reading limit returns; the unit has no numeral before
it. -/
theorem returns_of_im (hre : Double.Agree z.re 0) (him : z.im = withSign minus b)
    (hb : Positive b) (hsize : size b ≤ Scientific.readLimit) : Returns z := by
  have hre' : SameText 0 z.re := Number.sameText_of_agree hre.symm
  have htext := toList_text_of_im hre him hb
  rw [imaginaryText_withSign hb] at htext
  by_cases hunit : realText b = ['1']
  · rw [if_pos hunit] at htext
    have hlegible := legible_signSymbols legible_imaginaryUnit (.inr rfl) minus
    have hgives := Typed.gives_evalText .unit .none hlegible
      (htext.trans (spelled_signSymbols minus [.imaginaryUnit]).symm)
    refine returns_of_sameText hgives (Number.agree_signed_imaginaryUnit minus) hre' ?_
    rw [him]
    exact Number.sameText_withSign positive_one hb (realText_one.trans hunit.symm) minus
  · rw [if_neg hunit] at htext
    obtain ⟨n, y, hn⟩ := exists_retyped hb hsize
    have hgives := hn.gives_evalText .product legible_imaginaryUnit breaks_imaginaryUnit minus htext
    have hproduct := agree_mul_unit (Number.agree_signed_ofReal minus y)
      (hn.positive.isFinite_withSign minus)
    refine returns_of_sameText hgives hproduct hre' ?_
    rw [him]
    exact Number.sameText_withSign hn.positive hb hn.text minus

/-- The text of a number with both parts up to the reading limit returns. -/
theorem returns_of_both (hre : z.re = withSign negative a) (ha : Positive a)
    (him : z.im = withSign minus b) (hb : Positive b) (hsize : size a ≤ Scientific.readLimit)
    (hsize' : size b ≤ Scientific.readLimit) : Returns z := by
  obtain ⟨n, x, hn⟩ := exists_retyped ha hsize
  obtain ⟨raw, normal, f, htail, hlegible, hspelled, y, hy, hshown, hf⟩ :=
    exists_tail hb hsize' minus
  have hbreaks : Numeral.Breaks (Token.spelled raw) := by
    rw [hspelled]
    exact breaks_sign minus _
  have htext := toList_text_of_both hre ha him hb
  rw [← hspelled] at htext
  have hgives := hn.gives_evalText htail hlegible hbreaks negative htext
  refine returns_of_sameText hgives (hf (Number.agree_signed_ofReal negative x)) ?_ ?_
  · rw [hre]
    exact Number.sameText_withSign hn.positive ha hn.text negative
  · rw [him]
    exact Number.sameText_withSign hy hb hshown minus

/-- The text of the number is refused at a numeral beyond the largest double. -/
def Refused (z : Number) (w : World) : Prop :=
  ∃ p, Outcome.seen (Expr.evalText Builtin.registry z.text w) =
    .error (.lex ⟨.tooLarge "1.797693135ᴇ308", p⟩) w.scene

/-- The first numeral of a text is refused, after a sign or none. -/
theorem refused_of_first (ha : Positive a) (hlarge : Scientific.readLimit < size a)
    {rest : List Char} (hrest : Numeral.Breaks rest)
    (htext : z.text.toList = signChars negative ++ (realText a ++ rest)) (w : World) :
    Refused z w := by
  have hempty : Token.Legible (realText a ++ rest) [] := trivial
  apply exists_refused ha hlarge hrest (signSymbols negative ++ [])
  · exact fun hnext => legible_signSymbols hempty hnext negative
  · rw [htext, spelled_signSymbols, List.append_assoc]
    rfl

/-- The second numeral of a text is refused, after a numeral that is read. -/
theorem refused_of_second (hn : Retyped a n y) (hb : Positive b)
    (hlarge : Scientific.readLimit < size b)
    (htext : z.text.toList = signChars negative ++
      (realText a ++ (if minus then '-' else '+') :: (realText b ++ ['i']))) (w : World) :
    Refused z w := by
  obtain ⟨op, g, hop, hsign, -⟩ := exists_sums minus
  have hspelled : Token.spelled [.binary op] = [if minus then '-' else '+'] := by
    rw [Token.spelled, List.flatMap_cons, hsign]
    rfl
  apply exists_refused hb hlarge breaks_imaginaryUnit
    (signSymbols negative ++ [numberSymbol n y, .binary op])
  · intro hnext
    have hop' : Token.Legible (realText b ++ ['i']) [.binary op] :=
      ⟨Symbol.readsBefore_sign hop hnext, trivial⟩
    have hbreaks : Numeral.Breaks (Token.spelled [.binary op] ++ (realText b ++ ['i'])) := by
      rw [hspelled]
      exact breaks_sign minus _
    apply legible_signSymbols (hn.legible_cons hop' hbreaks)
    rw [hn.spelled_cons, ← hn.chars, List.append_assoc]
    exact Symbol.followsSign_numeral hn.proper _
  · rw [htext, spelled_signSymbols, hn.spelled_cons, hspelled, List.append_assoc, List.append_assoc]
    rfl

/-- The text of one of the largest doubles is no unit. -/
theorem realText_ne_one (hb : Positive b) (hlarge : Scientific.readLimit < size b) :
    realText b ≠ ['1'] := by
  obtain ⟨n, -, hchars, -, hlast⟩ := Number.exists_numeral_realText hb.measures hb.size_pos
  rw [← hchars, (hlast hlarge).2]
  decide

end Typed

namespace Number

open Double Typed

/-- The text of a finite number can be typed back and gives a number with the same text, unless a
part is beyond `17976931345 · 10 ^ 298`: such a part is shown as `1.797693135ᴇ308`, which is beyond
the largest double and cannot be read. -/
theorem evalText_text (w : World) (z : Number) (hre : z.re.isFinite = true)
    (him : z.im.isFinite = true) :
    (size z.re ≤ Scientific.readLimit ∧ size z.im ≤ Scientific.readLimit →
      ∃ z', Outcome.seen (Expr.evalText Builtin.registry z.text w) =
        .ok (some (.number z')) w.scene ∧ z'.text = z.text) ∧
    (Scientific.readLimit < size z.re ∨ Scientific.readLimit < size z.im →
      ∃ p, Outcome.seen (Expr.evalText Builtin.registry z.text w) =
        .error (.lex ⟨.tooLarge "1.797693135ᴇ308", p⟩) w.scene) := by
  have hreturns (h : Returns z) : ∃ z', Outcome.seen (Expr.evalText Builtin.registry z.text w) =
      .ok (some (.number z')) w.scene ∧ z'.text = z.text := by
    obtain ⟨z', hgives, htext⟩ := h
    exact ⟨z', hgives w, htext⟩
  have hlimit : ¬ Scientific.readLimit < 0 := not_lt.mpr (by unfold Scientific.readLimit; positivity)
  obtain ⟨hre', hsize⟩ | ⟨negative, a, ha, hre', hsize⟩ := zero_or_withSign hre <;>
    obtain ⟨him', hsize'⟩ | ⟨minus, b, hb, him', hsize'⟩ := zero_or_withSign him <;>
    rw [hsize, hsize']
  · refine ⟨fun _ => hreturns (returns_of_zero hre' him'), ?_⟩
    rintro (h | h) <;> exact absurd h hlimit
  · refine ⟨fun h => hreturns (returns_of_im hre' him' hb h.2), ?_⟩
    rintro (h | h)
    · exact absurd h hlimit
    · have htext := toList_text_of_im hre' him' hb
      rw [imaginaryText_withSign hb, if_neg (realText_ne_one hb h)] at htext
      exact refused_of_first hb h breaks_imaginaryUnit htext w
  · refine ⟨fun h => hreturns (returns_of_re hre' ha him' h.1), ?_⟩
    rintro (h | h)
    · exact refused_of_first ha h Numeral.breaks_nil (toList_text_of_re hre' ha him') w
    · exact absurd h hlimit
  · refine ⟨fun h => hreturns (returns_of_both hre' ha him' hb h.1 h.2), fun h => ?_⟩
    have htext := toList_text_of_both hre' ha him' hb
    rcases lt_or_ge Scientific.readLimit (size a) with hlarge | hsmall
    · exact refused_of_first ha hlarge (breaks_sign minus _) htext w
    · have hlarge : Scientific.readLimit < size b := h.resolve_left (not_lt.mpr hsmall)
      obtain ⟨n, y, hn⟩ := exists_retyped ha hsmall
      rw [imaginaryText_withSign hb, if_neg (realText_ne_one hb hlarge)] at htext
      exact refused_of_second hn hb hlarge htext w

/-- A third and a small imaginary part, shown as `-0.3333333333+1.5ᴇ-7i`. -/
theorem evalText_text_third :
    let w := World.new ⟨fun _ => .ok "", fun _ _ => none⟩ .trace
    let z : Number := ⟨-1 / 3, 1.5e-7⟩
    z.text = "-0.3333333333+1.5ᴇ-7i" ∧ z.re.isFinite = true ∧ z.im.isFinite = true ∧
      ∃ z', Outcome.seen (Expr.evalText Builtin.registry z.text w) =
        .ok (some (.number z')) w.scene ∧ z'.text = z.text := by
  intro w z
  have hre : z.re.isFinite = true := by decide +kernel
  have him : z.im.isFinite = true := by decide +kernel
  have hsize : size z.re ≤ Scientific.readLimit ∧ size z.im ≤ Scientific.readLimit := by
    decide +kernel
  exact ⟨by decide +kernel, hre, him, (evalText_text w z hre him).1 hsize⟩

/-- The largest double is too large to be typed back. -/
theorem exists_too_large : ∃ x, Positive x ∧ Scientific.readLimit < size x := by
  refine ⟨1.7976931348623157e308, ?_, by decide +kernel⟩
  exact (measures_of_pos (by decide +kernel) (by decide +kernel)).positive (by decide +kernel)

/-- Not every text of a finite number can be typed back. -/
theorem not_evalText_text :
    ¬ ∀ (w : World) (z : Number), z.re.isFinite = true → z.im.isFinite = true →
      ∃ z', Outcome.seen (Expr.evalText Builtin.registry z.text w) =
        .ok (some (.number z')) w.scene ∧ z'.text = z.text := by
  intro h
  obtain ⟨x, hx, hlarge⟩ := exists_too_large
  have hzero : (0 : Float).isFinite = true := by decide +kernel
  have htext : (ofReal x).text.toList = signChars false ++ (realText x ++ []) :=
    toList_text_of_re rfl hx (.refl 0)
  let w := World.new ⟨fun _ => .ok "", fun _ _ => none⟩ .trace
  obtain ⟨z', hseen, -⟩ := h w (.ofReal x) (hx.isFinite_withSign false) hzero
  obtain ⟨p, hrefused⟩ := refused_of_first hx hlarge Numeral.breaks_nil htext w
  rw [hrefused] at hseen
  cases hseen

end Number

end Handheld
