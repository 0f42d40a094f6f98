import Handheld.Proofs.SignedZero

/-!
# Numbers that agree

Numbers agree if their parts do. The four operations, the power and the elementary functions give
results that agree for equal numbers, on either side of the real axis and of the imaginary axis;
where a function has a cut, only away from it. At a cut the sign of a zero tells the side.
-/

namespace Handheld

open Float.Model (UnpackedFloat)
open Float.Model.UnpackedFloat (Sign)

namespace Double

/-- The two zeros agree. -/
theorem agree_zeros : Agree 0 (-0) := .inl rfl

theorem zero_beq_zero : ((0 : Float) == 0) = true := rfl

theorem neg_zero_beq_zero : ((-0 : Float) == 0) = true := rfl

theorem isNaN_zero : (0 : Float).isNaN = false := rfl

theorem isNaN_neg_zero : (-0 : Float).isNaN = false := rfl

theorem isInf_zero : (0 : Float).isInf = false := rfl

theorem isInf_neg_zero : (-0 : Float).isInf = false := rfl

theorem isFinite_zero : (0 : Float).isFinite = true := rfl

theorem isFinite_neg_zero : (-0 : Float).isFinite = true := rfl

/-- Doubles that agree are the same away from zero. -/
theorem Agree.eq_of_ne_zero {x y : Float} (h : Agree x y) (hx : (x == 0) = false) : x = y := by
  obtain h | ⟨rfl, -⟩ | ⟨rfl, -⟩ := agree_iff.mp h
  · exact h
  · rw [zero_beq_zero] at hx
    cases hx
  · rw [neg_zero_beq_zero] at hx
    cases hx

/-- Of doubles that agree both are zero or none is. -/
theorem Agree.beq_zero_eq {x y : Float} (h : Agree x y) : (x == 0) = (y == 0) :=
  h.congr (f := (· == 0)) rfl

private theorem Agree.isNaN_eq {x y : Float} (h : Agree x y) : x.isNaN = y.isNaN :=
  h.congr (f := Float.isNaN) rfl

private theorem Agree.isInf_eq {x y : Float} (h : Agree x y) : x.isInf = y.isInf :=
  h.congr (f := Float.isInf) rfl

private theorem Agree.isFinite_eq {x y : Float} (h : Agree x y) : x.isFinite = y.isFinite :=
  h.congr (f := Float.isFinite) rfl

/-- Doubles that agree have the same absolute value. -/
theorem Agree.abs_eq {x y : Float} (h : Agree x y) : x.abs = y.abs :=
  h.congr (f := Float.abs) rfl

/-- Comparisons do not see the sign of a zero. -/
theorem Agree.compare_eq {x x' y y' : Float} (hx : Agree x x') (hy : Agree y y') :
    (parts x).compare (parts y) = (parts x').compare (parts y') := by
  have hleft (u : UnpackedFloat) :
      (parts 0).compare u = (parts (-0)).compare u := by
    rw [parts_zero, parts_neg_zero]
    rcases u with (_ | _) | _ | _ | ⟨_ | _, m, e, hm⟩ <;> rfl
  have hright (u : UnpackedFloat) :
      u.compare (parts 0) = u.compare (parts (-0)) := by
    rw [parts_zero, parts_neg_zero]
    rcases u with (_ | _) | _ | _ | ⟨_ | _, m, e, hm⟩ <;> rfl
  rw [hx.congr (f := fun x => (parts x).compare (parts y)) (hleft _),
    hy.congr (f := fun y => (parts x').compare (parts y)) (hright _)]

/-- The order does not see the sign of a zero. -/
theorem Agree.lt_iff {x x' y y' : Float} (hx : Agree x x') (hy : Agree y y') :
    x < y ↔ x' < y' := by
  rw [lt_iff_parts, lt_iff_parts, UnpackedFloat.lt, UnpackedFloat.lt, hx.compare_eq hy]

/-- The order does not see the sign of a zero, bounds included. -/
theorem Agree.le_iff {x x' y y' : Float} (hx : Agree x x') (hy : Agree y y') :
    x ≤ y ↔ x' ≤ y' := by
  rw [le_iff_parts, le_iff_parts, UnpackedFloat.le, UnpackedFloat.le, hx.compare_eq hy]

/-- Equality does not see the sign of a zero. -/
private theorem Agree.beq_eq {x x' y y' : Float} (hx : Agree x x') (hy : Agree y y') :
    (x == y) = (x' == y') := by
  rw [beq_eq_parts, beq_eq_parts, UnpackedFloat.beq, UnpackedFloat.beq, hx.compare_eq hy]

/-- To a double that is not zero either zero adds nothing. -/
theorem add_eq_of_ne_zero {x u v : Float} (hx : (x == 0) = false) (h : Agree u v) :
    x + u = x + v := by
  apply h.congr (f := (x + ·))
  apply parts_injective
  rw [beq_eq_parts, parts_zero] at hx
  rw [parts_add, parts_add, parts_zero, parts_neg_zero]
  cases hparts : parts x with
  | zero s =>
    rw [hparts] at hx
    cases hx
  | _ => rfl

/-- The length of a vector does not see the signs of its zeros. -/
private theorem hypot_congr {x x' y y' : Float} (hx : Agree x x') (hy : Agree y y') :
    hypot x y = hypot x' y' := by
  have hleft (y : Float) : hypot 0 y = hypot (-0) y := by
    have habs : (0 : Float).abs = (-0 : Float).abs := rfl
    simp only [hypot, isInf_zero, isInf_neg_zero, isNaN_zero, isNaN_neg_zero, habs]
  have hright (x : Float) : hypot x 0 = hypot x (-0) := by
    have habs : (0 : Float).abs = (-0 : Float).abs := rfl
    simp only [hypot, isInf_zero, isInf_neg_zero, isNaN_zero, isNaN_neg_zero, habs]
  rw [hx.congr (f := (hypot · y)) (hleft y), hy.congr (f := hypot x') (hright x')]

/-- Any power to a zero is one. -/
theorem pow_congr {y y' : Float} (x : Float) (h : Agree y y') : pow x y = pow x y' := by
  apply h.congr (f := pow x)
  simp only [pow, zero_beq_zero, neg_zero_beq_zero, Bool.true_or, if_true]

/-- A zero times a finite double is the zero `z` with the product of the signs. -/
theorem mul_zero_of_parts {x y z : Float} {r s : Sign} {m : ℕ} {e : ℤ} {hm : 0 < m}
    (hx : parts x = .zero r) (hy : parts y = .finite s m e hm) (hz : parts z = .zero (r * s)) :
    x * y = z ∧ y * x = z := by
  have hsign : s * r = r * s := by cases r <;> cases s <;> rfl
  refine ⟨parts_injective ?_, parts_injective ?_⟩
  · rw [parts_mul, hx, hy, hz]
    exact stored_zero _
  · rw [parts_mul, hx, hy, hz, ← hsign]
    exact stored_zero _

/-- A double is equal to zero exactly if its parts are a zero of either sign. -/
theorem beq_zero_iff_parts {x : Float} : (x == 0) = true ↔ ∃ s, parts x = .zero s := by
  rw [beq_eq_parts, parts_zero]
  rcases parts x with s | _ | s | ⟨s, m, e, hm⟩
  · cases s <;> exact ⟨nofun, nofun⟩
  · exact ⟨nofun, nofun⟩
  · exact ⟨fun _ => ⟨s, rfl⟩, fun _ => rfl⟩
  · cases s <;> exact ⟨nofun, nofun⟩

/-- Of the two zeros only the positive one has no minus. -/
private theorem Plus.eq_zero {x : Float} (h : Plus (parts x)) (hx : (x == 0) = true) : x = 0 := by
  obtain ⟨s, hs⟩ := beq_zero_iff_parts.mp hx
  apply parts_injective
  rw [hs] at h ⊢
  rw [parts_zero, show s = .positive from h.2]

/-- Only zeros are as small as a zero. -/
private theorem beq_zero_of_abs_le {x y : Float} (hx : (x == 0) = true) (h : y.abs ≤ x.abs) :
    (y == 0) = true := by
  obtain ⟨s, hs⟩ := beq_zero_iff_parts.mp hx
  rw [le_iff_parts, parts_abs, parts_abs, hs] at h
  rw [beq_zero_iff_parts]
  cases hy : parts y with
  | zero s => exact ⟨s, rfl⟩
  | _ =>
    rw [hy] at h
    cases h

/-- A positive double has no minus. -/
private theorem plus_of_pos {x : Float} (h : 0 < x) : Plus (parts x) := by
  rw [lt_iff_parts, parts_zero] at h
  rcases hparts : parts x with s | _ | s | ⟨s, m, e, hm⟩ <;> rw [hparts] at h
  · cases s with
    | positive => exact ⟨nofun, rfl⟩
    | negative => cases h
  · cases h
  · cases h
  · cases s with
    | positive => exact ⟨nofun, rfl⟩
    | negative => cases h

/-- A positive double is not equal to zero. -/
private theorem ne_zero_of_pos {x : Float} (h : 0 < x) : (x == 0) = false := by
  by_contra hzero
  obtain ⟨s, hs⟩ := beq_zero_iff_parts.mp (Bool.not_eq_false _ |>.mp hzero)
  rw [lt_iff_parts, parts_zero, hs] at h
  cases h

/-- A defined double that is neither negative nor zero is positive. -/
theorem pos_of_not_lt {x : Float} (hnan : x.isNaN = false) (hne : (x == 0) = false) (h : ¬ x < 0) :
    0 < x := by
  rw [isNaN_eq_parts] at hnan
  rw [beq_eq_parts, parts_zero] at hne
  rw [lt_iff_parts, parts_zero] at h ⊢
  generalize parts x = u at hnan hne h ⊢
  rcases u with s | _ | s | ⟨s, m, e, hm⟩
  · cases s with
    | positive => rfl
    | negative => exact absurd rfl h
  · cases hnan
  · cases hne
  · cases s with
    | positive => rfl
    | negative => exact absurd rfl h

/-- A zero is as small as any defined double. -/
private theorem abs_le_of_zero {x y : Float} (hy : (y == 0) = true) (hx : x.isNaN = false) :
    y.abs ≤ x.abs := by
  obtain ⟨s, hs⟩ := beq_zero_iff_parts.mp hy
  rw [isNaN_eq_parts] at hx
  rw [le_iff_parts, parts_abs, parts_abs, hs]
  cases hparts : parts x with
  | notANumber =>
    rw [hparts] at hx
    cases hx
  | _ => rfl

end Double

namespace Number

open Double (agree_zeros parts parts_zero parts_neg_zero Plus)

/-- Numbers whose parts agree. -/
structure Agree (a b : Number) : Prop where
  re : Double.Agree a.re b.re
  im : Double.Agree a.im b.im

instance (a b : Number) : Decidable (Agree a b) :=
  decidable_of_iff (Double.Agree a.re b.re ∧ Double.Agree a.im b.im)
    ⟨fun ⟨hre, him⟩ => ⟨hre, him⟩, fun ⟨hre, him⟩ => ⟨hre, him⟩⟩

/-- A number is zero exactly if both of its parts are equal to zero. -/
theorem isZero_eq_parts (z : Number) : z.isZero = (z.re == 0 && z.im == 0) := rfl

namespace Agree

variable {a a' b b' c : Number}

theorem refl (a : Number) : Agree a a := ⟨.refl _, .refl _⟩

theorem of_eq (h : a = b) : Agree a b := h ▸ refl a

private theorem symm (h : Agree a b) : Agree b a := ⟨h.re.symm, h.im.symm⟩

/-- Real numbers agree if their doubles do. -/
theorem ofReal {x y : Float} (h : Double.Agree x y) : Agree (.ofReal x) (.ofReal y) := ⟨h, .refl 0⟩

/-- What keeps agreement of doubles keeps that of numbers, part by part. -/
theorem mapParts {f : Float → Float} (hf : Double.Agree (f 0) (f (-0))) (h : Agree a b) :
    Agree (a.mapParts f) (b.mapParts f) :=
  ⟨h.re.map hf, h.im.map hf⟩

/-- Sums of numbers that agree do so. -/
theorem add (ha : Agree a a') (hb : Agree b b') : Agree (a.add b) (a'.add b') :=
  ⟨ha.re.add hb.re, ha.im.add hb.im⟩

/-- Differences of numbers that agree do so. -/
theorem sub (ha : Agree a a') (hb : Agree b b') : Agree (a.sub b) (a'.sub b') :=
  ⟨ha.re.sub hb.re, ha.im.sub hb.im⟩

/-- Products of numbers that agree do so. -/
theorem mul (ha : Agree a a') (hb : Agree b b') : Agree (a.mul b) (a'.mul b') :=
  ⟨(ha.re.mul hb.re).sub (ha.im.mul hb.im), (ha.re.mul hb.im).add (ha.im.mul hb.re)⟩

/-- Of numbers that agree both are real or none is. -/
theorem isReal_eq (h : Agree a b) : a.isReal = b.isReal := h.im.beq_zero_eq

/-- Of numbers that agree both are zero or none is. -/
theorem isZero_eq (h : Agree a b) : a.isZero = b.isZero := by
  rw [isZero_eq_parts, isZero_eq_parts, h.re.beq_zero_eq, h.im.beq_zero_eq]

/-- Equality of numbers does not see the signs of zeros. -/
theorem equals_eq (ha : Agree a a') (hb : Agree b b') : a.equals b = a'.equals b' := by
  rw [equals, equals, ha.re.beq_eq hb.re, ha.im.beq_eq hb.im]

/-- Numbers that agree have the same modulus. -/
theorem modulus_eq (h : Agree a b) : a.modulus = b.modulus := Double.hypot_congr h.re h.im

end Agree

/-- Equal numbers agree, and nothing in them is undefined. -/
theorem agree_of_equals {a b : Number} (h : a.equals b = true) : Agree a b := by
  obtain ⟨hre, him⟩ := Bool.and_eq_true_iff.mp h
  exact ⟨.inl hre, .inl him⟩

/-- Equal numbers are defined in both parts. -/
theorem isNaN_of_equals {a b : Number} (h : a.equals b = true) :
    a.re.isNaN = false ∧ a.im.isNaN = false := by
  obtain ⟨hre, him⟩ := Bool.and_eq_true_iff.mp h
  rw [Float.isNaN_eq_decide_eq_nan, Float.isNaN_eq_decide_eq_nan]
  exact ⟨decide_eq_false (Float.beq_iff_ne_nan_and_eq.mp hre).1,
    decide_eq_false (Float.beq_iff_ne_nan_and_eq.mp him).1⟩

/-- Numbers that agree and are not real are the same, but for the sign of a zero real part. -/
theorem Agree.cases_of_not_real {a b : Number} (h : Agree a b) (hreal : (a.im == 0) = false) :
    a = b ∨ (a.re == 0) = true ∧
      (a = ⟨0, a.im⟩ ∧ b = ⟨-0, a.im⟩ ∨ a = ⟨-0, a.im⟩ ∧ b = ⟨0, a.im⟩) := by
  obtain ⟨x, y⟩ := a
  obtain ⟨x', y'⟩ := b
  obtain ⟨hre, him⟩ := h
  obtain rfl : y = y' := him.eq_of_ne_zero hreal
  obtain rfl | ⟨rfl, rfl⟩ | ⟨rfl, rfl⟩ := Double.agree_iff.mp hre
  · exact .inl rfl
  · exact .inr ⟨Double.zero_beq_zero, .inl ⟨rfl, rfl⟩⟩
  · exact .inr ⟨Double.neg_zero_beq_zero, .inr ⟨rfl, rfl⟩⟩

/-- A function of numbers that are not real keeps agreement if it does so on the imaginary axis. -/
theorem Agree.map_of_not_real {f : Number → Number} {a b : Number} (h : Agree a b)
    (hreal : (a.im == 0) = false)
    (hf : (a.re == 0) = true → Agree (f ⟨0, a.im⟩) (f ⟨-0, a.im⟩)) : Agree (f a) (f b) := by
  obtain rfl | ⟨hzero, ⟨ha, rfl⟩ | ⟨ha, rfl⟩⟩ := h.cases_of_not_real hreal
  · exact refl _
  · rw [ha]
    exact hf hzero
  · rw [ha]
    exact (hf hzero).symm

/-- What is the same on both sides of the imaginary axis does not tell numbers apart that agree and
are not real. -/
theorem Agree.congr_of_not_real {α : Type} {f : Number → α} {a b : Number} (h : Agree a b)
    (hreal : (a.im == 0) = false) (hf : f ⟨0, a.im⟩ = f ⟨-0, a.im⟩) : f a = f b := by
  obtain rfl | ⟨-, ⟨ha, rfl⟩ | ⟨ha, rfl⟩⟩ := h.cases_of_not_real hreal
  · rfl
  · rw [ha]
    exact hf
  · rw [ha]
    exact hf.symm

section Axis

variable {y : Float}

/-- The square root is the same on both sides of the imaginary axis. -/
theorem sqrt_axis (hy : (y == 0) = false) : sqrt ⟨0, y⟩ = sqrt ⟨-0, y⟩ := by
  simp only [sqrt, hy, Double.zero_beq_zero, Double.neg_zero_beq_zero, if_true]

/-- The phase is the same on both sides of the imaginary axis. -/
private theorem phase_axis (hy : (y == 0) = false) : phase ⟨0, y⟩ = phase ⟨-0, y⟩ := by
  simp only [phase, Double.atan2, hy, Double.zero_beq_zero, Double.neg_zero_beq_zero,
    Double.isNaN_zero, Double.isNaN_neg_zero, Bool.false_eq_true, if_false, if_true]

/-- The logarithm is the same on both sides of the imaginary axis. -/
theorem log_axis (hy : (y == 0) = false) : log ⟨0, y⟩ = log ⟨-0, y⟩ := by
  have hmodulus : modulus ⟨0, y⟩ = modulus ⟨-0, y⟩ := Double.hypot_congr agree_zeros (.refl y)
  rw [log, log, hmodulus, phase_axis hy]

/-- The exponential function is the same at the two zeros. -/
theorem exp_zeros : Double.exp 0 = Double.exp (-0) := by decide +kernel

/-- The exponential function is the same on both sides of the imaginary axis. -/
theorem exp_axis : exp ⟨0, y⟩ = exp ⟨-0, y⟩ := by
  simp only [exp, Double.isInf_zero, Double.isInf_neg_zero, Double.isNaN_zero, Double.isNaN_neg_zero,
    Bool.false_and, Bool.false_eq_true, if_false, exp_zeros]

private theorem agree_sin_zeros : Double.Agree (Double.sin 0) (Double.sin (-0)) := .inl rfl

/-- The cosine is the same at the two zeros. -/
theorem cos_zeros : Double.cos 0 = Double.cos (-0) := rfl

/-- The sines on both sides of the imaginary axis agree. -/
theorem agree_sin : Agree (sin ⟨0, y⟩) (sin ⟨-0, y⟩) := by
  simp only [sin, Double.zero_beq_zero, Double.neg_zero_beq_zero, Double.isFinite_zero,
    Double.isFinite_neg_zero, Bool.not_true, Bool.and_false, Bool.and_true, Bool.true_and,
    Bool.false_eq_true, if_false]
  split_ifs
  · exact ⟨agree_zeros, .refl y⟩
  · exact ⟨agree_zeros, .refl y⟩
  · exact ⟨agree_sin_zeros.mul (.refl _), .of_eq (by rw [cos_zeros])⟩

/-- The cosines on both sides of the imaginary axis agree. -/
theorem agree_cos : Agree (cos ⟨0, y⟩) (cos ⟨-0, y⟩) := by
  simp only [cos, Double.zero_beq_zero, Double.neg_zero_beq_zero, Double.isFinite_zero,
    Double.isFinite_neg_zero, Bool.not_true, Bool.and_false, Bool.and_true, Bool.true_and,
    Bool.false_eq_true, if_false]
  split_ifs
  · exact ⟨.refl _, agree_zeros.neg.mul (.refl _)⟩
  · exact .refl _
  · exact ⟨.of_eq (by rw [cos_zeros]), agree_sin_zeros.neg.mul (.refl _)⟩

/-- The denominator of the tangent is the same on both sides of the imaginary axis. -/
private theorem tanDenominator_axis : tanDenominator ⟨0, y⟩ = tanDenominator ⟨-0, y⟩ := by
  have hcos : Double.cos (2 * 0) = Double.cos (2 * -0) := rfl
  have hrest : Double.halfTurnRest (2 * 0 : Float).abs = Double.halfTurnRest (2 * -0 : Float).abs :=
    rfl
  simp only [tanDenominator, tanSeries, hcos, hrest]

/-- The tangents on both sides of the imaginary axis agree. -/
theorem agree_tan : Agree (tan ⟨0, y⟩) (tan ⟨-0, y⟩) := by
  have hsin : Double.Agree (Double.sin (2 * 0)) (Double.sin (2 * -0)) := .inl rfl
  simp only [tan, tanDenominator_axis, Double.zero_beq_zero, Double.neg_zero_beq_zero,
    Double.isFinite_zero, Double.isFinite_neg_zero, if_true, Bool.true_and]
  split_ifs
  · exact ⟨hsin.copySign, .refl _⟩
  · exact ⟨agree_zeros, .refl _⟩
  · exact .refl _
  · exact ⟨hsin.div _, .refl _⟩

/-- The decimal logarithm is the same on both sides of the imaginary axis. -/
theorem log10_axis (hy : (y == 0) = false) : log10 ⟨0, y⟩ = log10 ⟨-0, y⟩ := by
  rw [log10, log10, log_axis hy]

/-- The inverse tangents on both sides of the imaginary axis agree up to the unit, where the cut
begins. -/
theorem agree_atan (hy : (y == 0) = false) (hle : y.abs ≤ 1) :
    Agree (atan ⟨0, y⟩) (atan ⟨-0, y⟩) := by
  simp only [atan, hy, hle, Double.zero_beq_zero, Double.neg_zero_beq_zero, decide_true,
    Bool.and_true, if_true]
  exact ⟨agree_zeros, .refl _⟩

/-- The root of a number without a minus, whose imaginary part is a zero. -/
theorem sqrt_plus {c t : Float} (hc : Plus (parts c)) (ht : (t == 0) = true) :
    sqrt ⟨c, t⟩ = ⟨c.sqrt, t⟩ := by
  simp only [sqrt, ht, hc.not_lt_zero, if_true, if_false]
  split_ifs with hzero
  · rw [hc.eq_zero hzero]
    rfl
  · rfl

/-- The angle of a number without a minus, whose imaginary part is a zero. -/
theorem phase_plus {c t : Float} (hc : Plus (parts c)) (ht : (t == 0) = true)
    (hnan : t.isNaN = false) : phase ⟨c, t⟩ = Double.copySign 0 t := by
  simp only [phase, Double.atan2, hnan, ht, hc.isNaN_eq, hc.isNegative_eq, Bool.or_self,
    Bool.false_eq_true, if_false, if_true]

/-- The logarithms on both sides of the positive real axis agree. -/
private theorem agree_log {c : Float} (hc : Plus (parts c)) : Agree (log ⟨c, 0⟩) (log ⟨c, -0⟩) := by
  have hmodulus : modulus ⟨c, 0⟩ = modulus ⟨c, -0⟩ := Double.hypot_congr (.refl c) agree_zeros
  refine ⟨.of_eq (by rw [log, log, hmodulus]), ?_⟩
  change Double.Agree (phase ⟨c, 0⟩) (phase ⟨c, -0⟩)
  rw [phase_plus hc Double.zero_beq_zero Double.isNaN_zero,
    phase_plus hc Double.neg_zero_beq_zero Double.isNaN_neg_zero]
  exact agree_zeros.copySign

/-- The formula of the arcsine on the imaginary axis, where `t` is the product of the parts. -/
theorem asin_axis {x t : Float} {s : Sign} {m : ℕ} {e : ℤ} {hm : 0 < m}
    (hy : parts y = .finite s m e hm) (hle : ¬ y.abs ≤ 1) (hx : x = 0 ∨ x = -0)
    (hleft : x * y = t) (hright : y * x = t) (ht : t = 0 ∨ t = -0) :
    asin ⟨x, y⟩ = ⟨(log ⟨-y + (1 - (0 - y * y)).sqrt, x + -t⟩).im,
      -(log ⟨-y + (1 - (0 - y * y)).sqrt, x + -t⟩).re⟩ := by
  have hnan : y.isNaN = false := by rw [Double.isNaN_eq_parts, hy]; rfl
  have hinf : y.isInf = false := by rw [Double.isInf_eq_parts, hy]; rfl
  have hreal : (y == 0) = false := by
    rw [Double.beq_eq_parts, hy]
    cases s <;> rfl
  have hzero : x.isInf = false ∧ x * x = 0 := by
    obtain rfl | rfl := hx <;> decide +kernel
  have hproduct : -(t + t) = -t ∧ (-t == 0) = true := by
    obtain rfl | rfl := ht <;> decide +kernel
  have hroot : sqrt ⟨1 - (0 - y * y), -t⟩ = ⟨(1 - (0 - y * y)).sqrt, -t⟩ :=
    sqrt_plus (Double.plus_one_sub (Double.plus_mul_self hnan)) hproduct.2
  simp only [asin, mul, add, hreal, hnan, hinf, hle, hleft, hright, hzero, hproduct, hroot,
    Bool.false_and, decide_false, Bool.and_false, Bool.false_eq_true, if_false]

/-- The inverse sines on both sides of the imaginary axis agree. Within the unit a formula for the
axis gives them; beyond it, the sign of zero goes through a product, a square root and a
logarithm. -/
theorem agree_asin (hnan : y.isNaN = false) (hreal : (y == 0) = false) :
    Agree (asin ⟨0, y⟩) (asin ⟨-0, y⟩) := by
  by_cases hle : y.abs ≤ 1
  · simp only [asin, hreal, hle, Double.zero_beq_zero, Double.neg_zero_beq_zero, Bool.false_and,
      Bool.false_eq_true, if_false, decide_true, Bool.and_true, if_true]
    exact ⟨agree_zeros, .refl _⟩
  cases hy : parts y with
  | notANumber =>
    rw [Double.isNaN_eq_parts, hy] at hnan
    cases hnan
  | zero s =>
    rw [Double.beq_eq_parts, hy] at hreal
    cases hreal
  | infinity s =>
    have hinf : y.isInf = true := by rw [Double.isInf_eq_parts, hy]; rfl
    simp only [asin, hreal, hnan, hinf, hle, Double.isNaN_zero, Double.isNaN_neg_zero,
      Double.isInf_zero, Double.isInf_neg_zero, Bool.false_and, Bool.false_eq_true, if_false,
      decide_false, Bool.and_false, if_true]
    exact ⟨agree_zeros.copySign, .refl _⟩
  | finite s m e hm =>
    cases s with
    | positive =>
      have hplus : (0 : Float) * y = 0 ∧ y * 0 = 0 :=
        Double.mul_zero_of_parts parts_zero hy rfl
      have hminus : (-0 : Float) * y = -0 ∧ y * -0 = -0 :=
        Double.mul_zero_of_parts parts_neg_zero hy rfl
      have hsum : (0 : Float) + -0 = -0 + -(-0) := rfl
      rw [asin_axis hy hle (.inl rfl) hplus.1 hplus.2 (.inl rfl),
        asin_axis hy hle (.inr rfl) hminus.1 hminus.2 (.inr rfl), hsum]
      exact .refl _
    | negative =>
      have hplus : (0 : Float) * y = -0 ∧ y * 0 = -0 :=
        Double.mul_zero_of_parts parts_zero hy rfl
      have hminus : (-0 : Float) * y = 0 ∧ y * -0 = 0 :=
        Double.mul_zero_of_parts parts_neg_zero hy rfl
      have hsums : (0 : Float) + -(-0) = 0 ∧ (-0 : Float) + -0 = -0 := ⟨rfl, rfl⟩
      have hneg : Plus (parts (-y)) := by
        rw [Double.parts_neg, hy]
        exact ⟨nofun, rfl⟩
      have hroot : Plus (parts (1 - (0 - y * y)).sqrt) :=
        Double.plus_sqrt (Double.plus_one_sub (Double.plus_mul_self hnan))
      obtain ⟨hre, him⟩ := agree_log (Double.plus_add hneg hroot)
      rw [asin_axis hy hle (.inl rfl) hplus.1 hplus.2 (.inr rfl),
        asin_axis hy hle (.inr rfl) hminus.1 hminus.2 (.inl rfl), hsums.1, hsums.2]
      exact ⟨him, hre.neg⟩

/-- The inverse cosines on both sides of the imaginary axis agree. -/
theorem agree_acos (hnan : y.isNaN = false) (hreal : (y == 0) = false) :
    Agree (acos ⟨0, y⟩) (acos ⟨-0, y⟩) := by
  obtain ⟨hre, him⟩ := agree_asin hnan hreal
  exact ⟨(Double.Agree.refl _).sub hre, him.neg⟩

end Axis

/-- Scaled quotients agree if their dividends do. -/
private theorem agree_scaledDiv_left {n n' : Number} (h : Agree n n') (m : Number) :
    Agree (scaledDiv n m) (scaledDiv n' m) := by
  unfold scaledDiv
  dsimp only
  split_ifs
  · exact ⟨(h.re.add (h.im.mul (.refl _))).div _, (h.im.sub (h.re.mul (.refl _))).div _⟩
  · exact ⟨((h.re.mul (.refl _)).add h.im).div _, ((h.im.mul (.refl _)).sub h.re).div _⟩

/-- Products with a conjugate agree if both factors do. -/
private theorem agree_timesConjugate {n n' m m' : Number} (hn : Agree n n') (hm : Agree m m')
    (k : Float) : Agree (timesConjugate k n m) (timesConjugate k n' m') :=
  ⟨(Double.Agree.refl k).mul ((hn.re.mul hm.re).add (hn.im.mul hm.im)),
    (Double.Agree.refl k).mul ((hn.im.mul hm.re).sub (hn.re.mul hm.im))⟩

private theorem agree_unitOfInfinity_zeros :
    Double.Agree (unitOfInfinity 0) (unitOfInfinity (-0)) := .inl rfl

/-- Quotients agree if the dividends do. -/
theorem agree_div_left {n n' : Number} (h : Agree n n') (m : Number) :
    Agree (n.div m) (n'.div m) := by
  have hscaled := agree_scaledDiv_left h m
  unfold div
  dsimp only
  rw [hscaled.re.isNaN_eq, hscaled.im.isNaN_eq, h.re.isNaN_eq, h.im.isNaN_eq, h.re.isInf_eq,
    h.im.isInf_eq, h.re.isFinite_eq, h.im.isFinite_eq]
  split_ifs
  · exact ⟨(Double.Agree.refl _).mul h.re, (Double.Agree.refl _).mul h.im⟩
  · exact agree_timesConjugate (h.mapParts agree_unitOfInfinity_zeros) (.refl m) _
  · exact agree_timesConjugate h (.refl _) _
  · exact hscaled
  · exact hscaled

/-- The parts of a divisor agree with those of an equal one, and the part to scale with is the
same. -/
theorem agree_scaledDiv_right {m m' : Number} (h : m.equals m' = true) (hm : m.isZero = false)
    (n : Number) : Agree (scaledDiv n m) (scaledDiv n m') := by
  obtain ⟨hre, him⟩ := agree_of_equals h
  obtain ⟨hnanre, hnanim⟩ := isNaN_of_equals h
  unfold scaledDiv
  dsimp only
  rw [← hre.abs_eq, ← him.abs_eq]
  split_ifs with hle
  · have hne : (m.re == 0) = false := by
      by_contra hzero
      rw [Bool.not_eq_false] at hzero
      rw [isZero_eq_parts, hzero, Double.beq_zero_of_abs_le hzero hle] at hm
      cases hm
    rw [← hre.eq_of_ne_zero hne]
    have hr : Double.Agree (m.im / m.re) (m'.im / m.re) := him.div _
    have hq : m.re + m.im / m.re * m.im = m.re + m'.im / m.re * m'.im :=
      Double.add_eq_of_ne_zero hne (hr.mul him)
    rw [hq]
    exact ⟨((Double.Agree.refl _).add ((Double.Agree.refl _).mul hr)).div _,
      ((Double.Agree.refl _).sub ((Double.Agree.refl _).mul hr)).div _⟩
  · have hne : (m.im == 0) = false := by
      by_contra hzero
      rw [Bool.not_eq_false] at hzero
      exact hle (Double.abs_le_of_zero hzero hnanre)
    rw [← him.eq_of_ne_zero hne]
    have hr : Double.Agree (m.re / m.im) (m'.re / m.im) := hre.div _
    have hq : m.im + m.re / m.im * m.re = m.im + m'.re / m.im * m'.re :=
      Double.add_eq_of_ne_zero hne (hr.mul hre)
    rw [hq]
    exact ⟨(((Double.Agree.refl _).mul hr).add (.refl _)).div _,
      (((Double.Agree.refl _).mul hr).sub (.refl _)).div _⟩

/-- Quotients by equal numbers agree unless the divisor is zero. -/
theorem agree_div_right {m m' : Number} (h : m.equals m' = true) (hm : m.isZero = false)
    (n : Number) : Agree (n.div m) (n.div m') := by
  have hscaled := agree_scaledDiv_right h hm n
  have hparts := agree_of_equals h
  unfold div
  dsimp only
  rw [hscaled.re.isNaN_eq, hscaled.im.isNaN_eq, ← hparts.isZero_eq, hm, hparts.re.isInf_eq,
    hparts.im.isInf_eq, hparts.re.isFinite_eq, hparts.im.isFinite_eq]
  simp only [Bool.false_and, Bool.false_eq_true, if_false]
  split_ifs
  · exact agree_timesConjugate (.refl _) hparts _
  · exact agree_timesConjugate (.refl n) (hparts.mapParts agree_unitOfInfinity_zeros) _
  · exact hscaled
  · exact hscaled

/-- Equal numbers have angles that agree, unless they are real and not positive. -/
theorem agree_phase {a b : Number} (h : a.equals b = true) (hcut : a.isReal = true → 0 < a.re) :
    Double.Agree a.phase b.phase := by
  have hagree := agree_of_equals h
  have hnan := (isNaN_of_equals h).2
  have hnan' : b.im.isNaN = false := by rw [← hagree.im.isNaN_eq, hnan]
  cases hreal : a.isReal with
  | false => exact .of_eq (hagree.congr_of_not_real (f := phase) hreal (phase_axis hreal))
  | true =>
    have hreal' : b.isReal = true := by rw [← hagree.isReal_eq, hreal]
    have hpos := hcut hreal
    have hre : a.re = b.re := hagree.re.eq_of_ne_zero (Double.ne_zero_of_pos hpos)
    have hphase : a.phase = Double.copySign 0 a.im := phase_plus (Double.plus_of_pos hpos) hreal hnan
    rw [hre] at hpos
    have hphase' : b.phase = Double.copySign 0 b.im :=
      phase_plus (Double.plus_of_pos hpos) hreal' hnan'
    rw [hphase, hphase']
    exact hagree.im.copySign

/-- Numbers with the same modulus agree if their phases do. -/
private theorem agree_polar {s t : Float} (r : Float) (h : Double.Agree s t) :
    Agree ⟨r * Double.cos s, r * Double.sin s⟩ ⟨r * Double.cos t, r * Double.sin t⟩ := by
  have hcos : Double.cos s = Double.cos t := h.congr (f := Double.cos) cos_zeros
  have hsin : Double.Agree (Double.sin s) (Double.sin t) := h.map (f := Double.sin) agree_sin_zeros
  rw [hcos]
  exact ⟨.refl _, (Double.Agree.refl r).mul hsin⟩

/-- A power with a real exponent, by modulus and phase. -/
private theorem pow_of_real {z w : Number} (hw : (w.im == 0) = true) :
    z.pow w = ⟨Double.pow z.modulus w.re * Double.cos (w.re * z.phase),
      Double.pow z.modulus w.re * Double.sin (w.re * z.phase)⟩ := by
  simp only [pow, bne, hw, Bool.not_true, Bool.false_eq_true, if_false]

/-- A power with any other exponent, by modulus and phase. -/
private theorem pow_of_not_real {z w : Number} (hw : (w.im == 0) = false) :
    z.pow w = ⟨Double.pow z.modulus w.re * Double.exp (-w.im * z.phase) *
        Double.cos (w.re * z.phase + w.im * Double.log z.modulus),
      Double.pow z.modulus w.re * Double.exp (-w.im * z.phase) *
        Double.sin (w.re * z.phase + w.im * Double.log z.modulus)⟩ := by
  simp only [pow, bne, hw, Bool.not_false, if_true]

/-- Powers agree if the exponents do and the bases have the same modulus and phases that agree. -/
theorem agree_pow {z z' w w' : Number} (hmodulus : z.modulus = z'.modulus)
    (hphase : Double.Agree z.phase z'.phase) (hw : Agree w w') :
    Agree (z.pow w) (z'.pow w') := by
  have hpow : Double.pow z'.modulus w.re = Double.pow z'.modulus w'.re := Double.pow_congr _ hw.re
  have hscale : Double.exp (-w.im * z.phase) = Double.exp (-w'.im * z'.phase) :=
    (hw.im.neg.mul hphase).congr (f := Double.exp) exp_zeros
  cases hreal : w.im == 0 with
  | true =>
    have hreal' : (w'.im == 0) = true := by rw [← hw.im.beq_zero_eq, hreal]
    rw [pow_of_real hreal, pow_of_real hreal', hmodulus, hpow]
    exact agree_polar _ (hw.re.mul hphase)
  | false =>
    have hreal' : (w'.im == 0) = false := by rw [← hw.im.beq_zero_eq, hreal]
    rw [pow_of_not_real hreal, pow_of_not_real hreal', hmodulus, hpow, hscale]
    exact agree_polar _ ((hw.re.mul hphase).add (hw.im.mul (.refl _)))

end Number

end Handheld
