import Handheld.Number.Functions
import Handheld.Proofs.Nearest

/-!
# The sign of a zero

Two doubles agree if they are equal, so that the sign of a zero does not matter, or if both are
undefined. The four operations keep agreement in each operand, but for the divisor. A function of
one double keeps it if it does so at the two zeros, which can be looked up.
-/

namespace Handheld.Double

open Float.Model (UnpackedFloat Format)
open Float.Model.UnpackedFloat (Sign)

/-- Equal doubles, whatever the sign of a zero, or two undefined ones. -/
def Agree (x y : Float) : Prop := (x == y) = true ∨ x.isNaN = true ∧ y.isNaN = true

instance (x y : Float) : Decidable (Agree x y) := inferInstanceAs (Decidable (_ ∨ _))

/-- Doubles agree exactly if they are the same or the two zeros. -/
theorem agree_iff {x y : Float} : Agree x y ↔ x = y ∨ x = 0 ∧ y = -0 ∨ x = -0 ∧ y = 0 := by
  have hzero : (0 : Float) ≠ Float.nan ∧ (-0 : Float) ≠ Float.nan := by decide +kernel
  unfold Agree
  rw [Float.beq_iff_ne_nan_and_eq, Float.isNaN_eq_decide_eq_nan, Float.isNaN_eq_decide_eq_nan,
    decide_eq_true_eq, decide_eq_true_eq]
  constructor
  · rintro (⟨-, -, h⟩ | ⟨rfl, rfl⟩)
    · exact h
    · exact .inl rfl
  · rintro (rfl | ⟨rfl, rfl⟩ | ⟨rfl, rfl⟩)
    · by_cases hnan : x = Float.nan
      · exact .inr ⟨hnan, hnan⟩
      · exact .inl ⟨hnan, hnan, .inl rfl⟩
    · exact .inl ⟨hzero.1, hzero.2, .inr (.inl ⟨rfl, rfl⟩)⟩
    · exact .inl ⟨hzero.2, hzero.1, .inr (.inr ⟨rfl, rfl⟩)⟩

namespace Agree

variable {x x' y y' z : Float}

theorem refl (x : Float) : Agree x x := agree_iff.mpr (.inl rfl)

theorem of_eq (h : x = y) : Agree x y := h ▸ refl x

/-- Agreement does not depend on which of the doubles comes first. -/
theorem symm (h : Agree x y) : Agree y x := by
  rw [agree_iff] at h ⊢
  obtain rfl | ⟨rfl, rfl⟩ | ⟨rfl, rfl⟩ := h
  · exact .inl rfl
  · exact .inr (.inr ⟨rfl, rfl⟩)
  · exact .inr (.inl ⟨rfl, rfl⟩)

/-- What is the same at the two zeros does not tell doubles apart that agree. -/
theorem congr {α : Type} (h : Agree x y) {f : Float → α} (hf : f 0 = f (-0)) : f x = f y := by
  rw [agree_iff] at h
  obtain rfl | ⟨rfl, rfl⟩ | ⟨rfl, rfl⟩ := h
  · rfl
  · exact hf
  · exact hf.symm

/-- A function of one double keeps agreement if its values at the two zeros agree. -/
theorem map (h : Agree x y) {f : Float → Float} (hf : Agree (f 0) (f (-0))) : Agree (f x) (f y) := by
  rw [agree_iff] at h
  obtain rfl | ⟨rfl, rfl⟩ | ⟨rfl, rfl⟩ := h
  · exact refl _
  · exact hf
  · exact hf.symm

/-- Doubles that agree with a third one agree. -/
theorem trans (hxy : Agree x y) (hyz : Agree y z) : Agree x z := by
  have hnegative : (-0 : Float) ≠ 0 := by decide +kernel
  rw [agree_iff] at hxy hyz ⊢
  obtain rfl | ⟨rfl, rfl⟩ | ⟨rfl, rfl⟩ := hxy
  · exact hyz
  · obtain rfl | ⟨h, -⟩ | ⟨-, rfl⟩ := hyz
    · exact .inr (.inl ⟨rfl, rfl⟩)
    · exact absurd h hnegative
    · exact .inl rfl
  · obtain rfl | ⟨-, rfl⟩ | ⟨h, -⟩ := hyz
    · exact .inr (.inr ⟨rfl, rfl⟩)
    · exact .inl rfl
    · exact absurd h.symm hnegative

/-- A function of two doubles keeps agreement if it does so at the two zeros of each operand. -/
private theorem map₂ {f : Float → Float → Float} (hleft : ∀ y, Agree (f 0 y) (f (-0) y))
    (hright : ∀ x, Agree (f x 0) (f x (-0))) (hx : Agree x x') (hy : Agree y y') :
    Agree (f x y) (f x' y') := by
  have hfirst : Agree (f x y) (f x' y) := hx.map (f := fun x => f x y) (hleft y)
  have hsecond : Agree (f x' y) (f x' y') := hy.map (f := fun y => f x' y) (hright x')
  exact hfirst.trans hsecond

end Agree

/-- The same parts, or two zeros. -/
def AlikeParts (u v : UnpackedFloat) : Prop := u = v ∨ ∃ s t, u = .zero s ∧ v = .zero t

/-- Doubles agree if their parts are the same or zeros. -/
theorem agree_of_alikeParts {x y : Float} (h : AlikeParts (parts x) (parts y)) : Agree x y := by
  obtain h | ⟨s, t, hx, hy⟩ := h
  · exact .of_eq (parts_injective h)
  · refine .inl ?_
    rw [beq_eq_parts, hx, hy]
    rfl

/-- Packing keeps zeros apart from everything else. -/
theorem alikeParts_stored {u v : UnpackedFloat} (h : AlikeParts u v) :
    AlikeParts (stored u) (stored v) := by
  obtain rfl | ⟨s, t, rfl, rfl⟩ := h
  · exact .inl rfl
  · exact .inr ⟨s, t, stored_zero s, stored_zero t⟩

/-- Positive zero is written without a minus. -/
theorem parts_zero : parts 0 = .zero .positive := rfl

/-- Negative zero is written with a minus. -/
theorem parts_neg_zero : parts (-0) = .zero .negative := rfl

/-- An operation on parts that tells no zeros apart makes an operation on doubles that keeps
agreement. -/
theorem agree_of_parts_op {f : Float → Float → Float} {op : UnpackedFloat → UnpackedFloat → UnpackedFloat}
    (hf : ∀ x y, parts (f x y) = stored (op (parts x) (parts y)))
    (hleft : ∀ u, AlikeParts (op (.zero .positive) u) (op (.zero .negative) u))
    (hright : ∀ u, AlikeParts (op u (.zero .positive)) (op u (.zero .negative)))
    {x x' y y' : Float} (hx : Agree x x') (hy : Agree y y') : Agree (f x y) (f x' y') := by
  apply Agree.map₂ _ _ hx hy
  · intro y
    apply agree_of_alikeParts
    rw [hf, hf, parts_zero, parts_neg_zero]
    exact alikeParts_stored (hleft _)
  · intro x
    apply agree_of_alikeParts
    rw [hf, hf, parts_zero, parts_neg_zero]
    exact alikeParts_stored (hright _)

namespace Agree

variable {x x' y y' : Float}

/-- Sums of doubles that agree do so. -/
theorem add (hx : Agree x x') (hy : Agree y y') : Agree (x + y) (x' + y') := by
  apply agree_of_parts_op parts_add _ _ hx hy
  · rintro (_ | _ | (_ | _) | _)
    all_goals first | exact .inl rfl | exact .inr ⟨_, _, rfl, rfl⟩
  · rintro (_ | _ | (_ | _) | _)
    all_goals first | exact .inl rfl | exact .inr ⟨_, _, rfl, rfl⟩

/-- Differences of doubles that agree do so. -/
theorem sub (hx : Agree x x') (hy : Agree y y') : Agree (x - y) (x' - y') := by
  apply agree_of_parts_op parts_sub _ _ hx hy
  · rintro (_ | _ | (_ | _) | _)
    all_goals first | exact .inl rfl | exact .inr ⟨_, _, rfl, rfl⟩
  · rintro (_ | _ | (_ | _) | _)
    all_goals first | exact .inl rfl | exact .inr ⟨_, _, rfl, rfl⟩

/-- Products of doubles that agree do so. -/
theorem mul (hx : Agree x x') (hy : Agree y y') : Agree (x * y) (x' * y') := by
  apply agree_of_parts_op parts_mul _ _ hx hy
  · rintro (_ | _ | _ | _)
    all_goals first | exact .inl rfl | exact .inr ⟨_, _, rfl, rfl⟩
  · rintro (_ | _ | _ | _)
    all_goals first | exact .inl rfl | exact .inr ⟨_, _, rfl, rfl⟩

/-- Quotients agree if the dividends do; the sign of a zero divisor tells two infinities apart. -/
theorem div (hx : Agree x x') (y : Float) : Agree (x / y) (x' / y) := by
  apply hx.map (f := (· / y))
  apply agree_of_alikeParts
  rw [parts_div, parts_div, parts_zero, parts_neg_zero]
  apply alikeParts_stored
  rcases parts y with _ | _ | _ | _
  all_goals first | exact .inl rfl | exact .inr ⟨_, _, rfl, rfl⟩

/-- Negation keeps agreement. -/
theorem neg (h : Agree x y) : Agree (-x) (-y) := h.map (by decide +kernel)

/-- A zero that takes over the sign of a double is a zero. -/
theorem copySign (h : Agree x y) : Agree (copySign 0 x) (copySign 0 y) := h.map (by decide +kernel)

end Agree

/-- A defined double without a minus, positive zero and infinity included. -/
def Plus (u : UnpackedFloat) : Prop := u ≠ .notANumber ∧ signOf u = .positive

/-- A double without a minus is not negative. -/
theorem Plus.isNegative_eq {x : Float} (h : Plus (parts x)) : isNegative x = false := by
  have hsign := signOf_parts x
  rw [h.2] at hsign
  cases hx : isNegative x with
  | false => rfl
  | true => simp [hx] at hsign

/-- A double without a minus is defined. -/
theorem Plus.isNaN_eq {x : Float} (h : Plus (parts x)) : x.isNaN = false := by
  rw [isNaN_eq_parts]
  cases hx : parts x with
  | notANumber => exact absurd hx h.1
  | _ => rfl

/-- What has no minus is positive zero, positive infinity or a positive finite double. -/
private theorem Plus.cases {u : UnpackedFloat} (h : Plus u) :
    u = .zero .positive ∨ u = .infinity .positive ∨ ∃ m e hm, u = .finite .positive m e hm := by
  obtain ⟨hnan, hsign⟩ := h
  cases u with
  | notANumber => exact absurd rfl hnan
  | zero s =>
    cases hsign
    exact .inl rfl
  | infinity s =>
    cases hsign
    exact .inr (.inl rfl)
  | finite s m e hm =>
    cases hsign
    exact .inr (.inr ⟨m, e, hm, rfl⟩)

/-- A double without a minus is not below zero. -/
theorem Plus.not_lt_zero {x : Float} (h : Plus (parts x)) : ¬ x < 0 := by
  rw [lt_iff_parts, parts_zero]
  obtain h | h | ⟨m, e, hm, h⟩ := h.cases <;> rw [h] <;>
    simp [UnpackedFloat.lt, UnpackedFloat.compare]

/-- The parts that measure a positive value have no minus. -/
private theorem Measures.plus {v : ℚ} {u : UnpackedFloat} (h : Measures .positive v u) :
    Plus u := by
  cases h <;> exact ⟨nofun, rfl⟩

/-- The parts nearest to a positive value have no minus, even if they are zero. -/
private theorem Nearest.plus {v : ℚ} {u : UnpackedFloat} (h : Nearest .positive v u) : Plus u := by
  cases h with
  | finite _ h => exact h.plus
  | infinity _ h => exact h ▸ ⟨nofun, rfl⟩

/-- The square of a defined double has no minus. -/
theorem plus_mul_self {x : Float} (h : x.isNaN = false) : Plus (parts (x * x)) := by
  rw [isNaN_eq_parts] at h
  have hsign (s : Sign) : s * s = .positive := by cases s <;> rfl
  cases hx : parts x with
  | notANumber =>
    rw [hx] at h
    cases h
  | infinity s =>
    rw [parts_mul, hx]
    change Plus (stored (.infinity (s * s)))
    rw [stored_infinity, hsign]
    exact ⟨nofun, rfl⟩
  | zero s =>
    have hmeasures : Measures s 0 (parts x) := hx ▸ .zero
    exact (hsign s ▸ nearest_mul hmeasures hmeasures).plus
  | finite s m e hm =>
    have hmeasures : Measures s (m * 2 ^ e) (parts x) := hx ▸ .finite hm
    exact (hsign s ▸ nearest_mul hmeasures hmeasures).plus

/-- A positive mantissa has no minus once it is normalized and packed, even where it underflows. -/
private theorem plus_stored_normalize {m : ℤ} (hm : 0 < m) (e : ℤ) (s : Sign) :
    Plus (stored (UnpackedFloat.normalize Format.binary64 m e s)) := by
  have hcompare : compare m 0 = .gt := Int.compare_eq_gt.mpr hm
  simp only [UnpackedFloat.normalize, hcompare]
  exact (stored_round .positive (Int.pos_iff_toNat_pos.mp hm) e).plus

private theorem plus_stored_zero : Plus (stored (.zero .positive)) := by
  rw [stored_zero]
  exact ⟨nofun, rfl⟩

private theorem plus_stored_infinity : Plus (stored (.infinity .positive)) := by
  rw [stored_infinity]
  exact ⟨nofun, rfl⟩

private theorem plus_unpack {f : BitVec 11} (hf : f ≠ -1#11) (b : BitVec 52) :
    Plus (UnpackedFloat.unpack Format.binary64
      (UnpackedFloat.packComponents Format.binary64 .positive f b)) := by
  unfold UnpackedFloat.unpack
  simp only [UnpackedFloat.unpackMantissa_packComponents,
    UnpackedFloat.unpackExponent_packComponents, UnpackedFloat.unpackSign_packComponents,
    Sign.ofBitVec_toBitVec, hf, if_false]
  split_ifs <;> exact ⟨nofun, rfl⟩

/-- Positive finite parts have no minus once they are packed, even where they overflow. -/
private theorem plus_stored_finite {m : ℕ} (hm : 0 < m) (e : ℤ) :
    Plus (stored (.finite .positive m e hm)) := by
  unfold stored Float.Model.pack Float.Model.unpack UnpackedFloat.pack
  dsimp only
  split_ifs with hmax hfull
  · exact plus_stored_infinity
  · refine plus_unpack (fun h => hmax ?_) _
    have hfield := congrArg BitVec.toNat h
    have hlast : (-1#11).toNat = 2047 := rfl
    rw [BitVec.toNat_ofNat, hlast] at hfield
    generalize (e + _ + _).toNat = f at hfield ⊢
    change 2048 ≤ f + 1
    omega
  · exact plus_unpack (by decide) _

/-- Sums of doubles without a minus have none. -/
theorem plus_add {x y : Float} (hx : Plus (parts x)) (hy : Plus (parts y)) : Plus (parts (x + y)) := by
  rw [parts_add]
  obtain hu | hu | ⟨m, e, hm, hu⟩ := hx.cases <;> obtain hv | hv | ⟨n, f, hn, hv⟩ := hy.cases <;>
    rw [hu, hv]
  · exact plus_stored_zero
  · exact plus_stored_infinity
  · exact plus_stored_finite hn f
  · exact plus_stored_infinity
  · exact plus_stored_infinity
  · exact plus_stored_infinity
  · exact plus_stored_finite hm e
  · exact plus_stored_infinity
  · simp only [UnpackedFloat.add, UnpackedFloat.decreaseExponent, Sign.apply, Nat.shiftLeft_eq]
    exact plus_stored_normalize (by positivity) _ _

/-- One minus the negation of a double without a minus has none. -/
theorem plus_one_sub {x : Float} (hx : Plus (parts x)) : Plus (parts (1 - (0 - x))) := by
  have hone : parts 1 = .finite .positive (2 ^ 52) (-52) (by norm_num) := rfl
  rw [parts_sub, parts_sub, parts_zero, hone]
  obtain hu | hu | ⟨m, e, hm, hu⟩ := hx.cases
  · rw [hu]
    exact plus_stored_finite _ _
  · rw [hu]
    exact plus_stored_infinity
  · have hneg : stored (.finite .negative m e hm) = .finite .negative m e hm := by
      obtain ⟨hcanonical, he⟩ := canonical_of_parts hu
      exact stored_finite hcanonical he
    rw [hu]
    change Plus (stored (UnpackedFloat.sub _ _ (stored (.finite .negative m e hm))))
    rw [hneg]
    simp only [UnpackedFloat.sub, UnpackedFloat.decreaseExponent, Sign.apply, Nat.shiftLeft_eq]
    exact plus_stored_normalize (by simp only [sub_neg_eq_add]; positivity) _ _

/-- The square root of a double without a minus has none. -/
theorem plus_sqrt {x : Float} (hx : Plus (parts x)) : Plus (parts x.sqrt) := by
  rw [parts_sqrt]
  obtain hu | hu | ⟨m, e, hm, hu⟩ := hx.cases <;> rw [hu]
  · exact plus_stored_zero
  · exact plus_stored_infinity
  · simp only [UnpackedFloat.sqrt, UnpackedFloat.roundWithAccuracy]
    split_ifs
    · exact plus_stored_zero
    · exact plus_stored_finite _ _

end Handheld.Double
