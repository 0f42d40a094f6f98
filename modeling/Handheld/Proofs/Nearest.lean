import Handheld.Proofs.Unpacked

/-!
# The operations round to the nearest double

A result is computed with two more bits behind its mantissa, which tell where in the last place it
lies. Shifting keeps track of them, so what is rounded in the end is the exact result: a product, a
quotient and a decimal come out as the double nearest to their exact values.
-/

namespace Handheld.Double

open Float.Model (UnpackedFloat Format totalExponent)
open Float.Model.UnpackedFloat (Sign ExtendedMantissa Accuracy)

/-- The two bits behind the mantissa tell in which half of the last place `x` lies. -/
def Locates (em : ExtendedMantissa) (x : ℚ) : Prop :=
  match em.roundBit, em.stickyBit with
  | false, false => x = em.mantissa
  | false, true => em.mantissa < x ∧ x < em.mantissa + 1 / 2
  | true, false => x = em.mantissa + 1 / 2
  | true, true => em.mantissa + 1 / 2 < x ∧ x < em.mantissa + 1

namespace Locates

variable {em : ExtendedMantissa} {x : ℚ}

/-- A located number lies in the unit above its mantissa. -/
private theorem bounds (h : Locates em x) : (em.mantissa : ℚ) ≤ x ∧ x < em.mantissa + 1 := by
  obtain ⟨m, _ | _, _ | _⟩ := em <;> simp only [Locates] at h ⊢ <;> constructor <;> linarith

private theorem floor_eq (h : Locates em x) : ⌊x⌋ = em.mantissa := by
  rw [Int.floor_eq_iff]
  exact_mod_cast h.bounds

/-- The two bits are enough to round a located number. -/
theorem roundedMantissa_eq (h : Locates em x) : (em.roundedMantissa : ℤ) = roundEven x := by
  have hfloor := h.floor_eq
  have hfract : Int.fract x = x - em.mantissa := by rw [Int.fract, hfloor, Int.cast_natCast]
  unfold roundEven
  rw [hfract, hfloor]
  obtain ⟨m, _ | _, _ | _⟩ := em <;>
    simp only [Locates, ExtendedMantissa.roundedMantissa, ExtendedMantissa.accuracy,
      Accuracy.roundToNearestEven] at h ⊢
  · rw [if_pos (by linarith)]
  · rw [if_pos (by linarith)]
  · rw [if_neg (by linarith), if_neg (by linarith)]
    push_cast
    rfl
  · rw [if_neg (by linarith), if_pos (by linarith)]
    push_cast
    rfl

/-- A shift by one place locates the half; what falls out is kept in the two bits. -/
private theorem shiftRightOne (h : Locates em x) : Locates em.shiftRightOne (x / 2) := by
  obtain ⟨m, r, t⟩ := em
  have hm : (m : ℚ) = 2 * (m / 2 : ℕ) + (m % 2 : ℕ) := by exact_mod_cast (Nat.div_add_mod m 2).symm
  rcases Nat.mod_two_eq_zero_or_one m with hbit | hbit
  · have hround : (m % 2 != 0) = false := by rw [hbit, bne_self_eq_false]
    rw [hbit, Nat.cast_zero] at hm
    cases r <;> cases t <;>
      simp only [Locates, ExtendedMantissa.shiftRightOne, hround,
        Bool.or_false, Bool.or_true] at h ⊢ <;>
      first | linarith | constructor <;> linarith
  · have hround : (m % 2 != 0) = true := by rw [hbit]; rfl
    rw [hbit, Nat.cast_one] at hm
    cases r <;> cases t <;>
      simp only [Locates, ExtendedMantissa.shiftRightOne, hround,
        Bool.or_false, Bool.or_true] at h ⊢ <;>
      first | linarith | constructor <;> linarith

/-- A shift locates the number divided by a power of two. -/
theorem shiftRight (h : Locates em x) (n : ℕ) : Locates (em >>> n) (x / 2 ^ n) := by
  change Locates (n.repeat ExtendedMantissa.shiftRightOne em) (x / 2 ^ n)
  induction n with
  | zero => simpa [Nat.repeat] using h
  | succ n ih =>
    rw [Nat.repeat, pow_succ, ← div_div]
    exact ih.shiftRightOne

end Locates

/-- A mantissa without an error locates itself. -/
theorem locates_exact (m : ℕ) : Locates (.ofMantissaAndAccuracy m .exact) m := rfl

/-- A finite double of sign `s` and size `x`. -/
inductive Measures (s : Sign) : ℚ → UnpackedFloat → Prop
  | zero : Measures s 0 (.zero s)
  | finite {m : ℕ} {e : ℤ} (hm : 0 < m) : Measures s (m * 2 ^ e) (.finite s m e hm)

/-- The double nearest to the number of sign `s` and size `x`. -/
inductive Nearest (s : Sign) (x : ℚ) (u : UnpackedFloat) : Prop
  | finite (hx : x < limit) (h : Measures s (rounded x) u)
  | infinity (hx : limit ≤ x) (h : u = .infinity s)

/-- The size of a finite double; others have the size zero. -/
def size (x : Float) : ℚ :=
  match parts x with
  | .finite _ m e _ => m * 2 ^ e
  | _ => 0

namespace Measures

variable {s t : Sign} {v w : ℚ} {x y : Float}

/-- The size of a double is not negative. -/
theorem nonneg {u : UnpackedFloat} (h : Measures s v u) : 0 ≤ v := by
  cases h with
  | zero => exact le_rfl
  | finite hm => positivity

/-- What a double measures is its size. -/
theorem size_eq (h : Measures s v (parts x)) : size x = v := by
  unfold size
  generalize parts x = u at h ⊢
  cases h <;> rfl

/-- The size of a double is not changed by rounding. -/
theorem rounded_eq (h : Measures s v (parts x)) : rounded v = v := by
  generalize hu : parts x = u at h
  cases h with
  | zero => exact rounded_zero
  | finite hm => exact (canonical_of_parts hu).1.rounded_eq hm

/-- The size of a double is below the limit. -/
theorem lt_limit (h : Measures s v (parts x)) : v < limit := by
  have hrounded := h.rounded_eq
  generalize hu : parts x = u at h
  cases h with
  | zero => exact limit_pos
  | finite hm =>
    obtain ⟨hcanonical, he⟩ := canonical_of_parts hu
    rw [← rounded_lt_iff (by positivity), hrounded, hcanonical.lt_iff]
    exact he

/-- Sign and size determine a finite double. -/
theorem unique (hx : Measures s v (parts x)) (hy : Measures s w (parts y)) (hvw : v = w) :
    x = y := by
  apply parts_injective
  generalize hpx : parts x = u at hx ⊢
  generalize hpy : parts y = u' at hy ⊢
  cases hx with
  | zero =>
    cases hy with
    | zero => rfl
    | finite hn => exact absurd hvw.symm (by positivity)
  | finite hm =>
    cases hy with
    | zero => exact absurd hvw (by positivity)
    | finite hn =>
      obtain ⟨rfl, rfl⟩ := (canonical_of_parts hpx).1.eq_of_value_eq (canonical_of_parts hpy).1 hm hn hvw
      rfl

end Measures

/-- Below the limit the nearest double measures the rounded number. -/
theorem Nearest.measures {s : Sign} {v : ℚ} {u : UnpackedFloat} (h : Nearest s v u) (hv : v < limit) :
    Measures s (rounded v) u := by
  cases h with
  | finite _ h => exact h
  | infinity hlimit _ => exact absurd hv (not_lt.mpr hlimit)

/-- From the limit on the nearest double is infinite. -/
theorem Nearest.eq_infinity {s : Sign} {v : ℚ} {u : UnpackedFloat} (h : Nearest s v u)
    (hv : limit ≤ v) : u = .infinity s := by
  cases h with
  | finite hlimit _ => exact absurd hv (not_le.mpr hlimit)
  | infinity _ h => exact h

/-- A finite double has a sign and measures its size. -/
theorem measures_of_isFinite {x : Float} (h : x.isFinite = true) : ∃ s, Measures s (size x) (parts x) := by
  rw [isFinite_eq_parts] at h
  unfold size
  cases hx : parts x with
  | zero s => exact ⟨s, .zero⟩
  | finite s m e hm => exact ⟨s, .finite hm⟩
  | infinity s => rw [hx] at h; cases h
  | notANumber => rw [hx] at h; cases h

/-- A positive finite double measures its size without a minus. -/
theorem measures_of_pos {x : Float} (h : 0 < x) (hfinite : x.isFinite = true) :
    Measures .positive (size x) (parts x) := by
  obtain ⟨s, hs⟩ := measures_of_isFinite hfinite
  have hzero : parts 0 = .zero .positive := rfl
  rw [lt_iff_parts, hzero] at h
  generalize parts x = u at h hs
  generalize size x = v at hs ⊢
  cases s with
  | positive => exact hs
  | negative => cases hs <;> cases h

/-- The exponent that a mantissa is shifted to: fifty-two places below its first bit, or the least
place. -/
private theorem targetExponent_eq (m : ℕ) (e : ℤ) :
    Format.binary64.targetExponent (totalExponent m e) = max (m.log2 + e - 52) (-1074) := by
  have hleast : Format.binary64.minExponent = -1074 := rfl
  have hbits : Format.binary64.mantissaBits = 53 := rfl
  unfold Format.targetExponent totalExponent
  rw [hleast, hbits]
  congr 1
  omega

/-- The last place is told from the mantissa in front of the two bits. -/
theorem lastPlace_mul_zpow {m : ℕ} (hm : 0 < m) {x : ℚ} (hle : m ≤ x) (hlt : x < m + 1) (e : ℤ) :
    lastPlace (x * 2 ^ e) = max (m.log2 + e - 52) (-1074) := by
  have hpos : (0 : ℚ) < 2 ^ e := by positivity
  have hm' : (0 : ℚ) < m := by exact_mod_cast hm
  have hx : 0 < x * 2 ^ e := mul_pos (hm'.trans_le hle) hpos
  have hlow : (2 : ℚ) ^ m.log2 ≤ m := by exact_mod_cast Nat.log2_self_le hm.ne'
  have hhigh : (m : ℚ) + 1 ≤ 2 ^ (m.log2 + 1) := by exact_mod_cast Nat.lt_log2_self
  have hlog : Int.log 2 (x * 2 ^ e) = m.log2 + e := by
    apply le_antisymm
    · rw [← Int.lt_add_one_iff, ← Int.lt_zpow_iff_log_lt (by norm_num) hx, Nat.cast_ofNat,
        show (m.log2 : ℤ) + e + 1 = ((m.log2 + 1 : ℕ) : ℤ) + e by push_cast; ring,
        zpow_add₀ (by norm_num), zpow_natCast]
      exact mul_lt_mul_of_pos_right (hlt.trans_le hhigh) hpos
    · rw [← Int.zpow_le_iff_le_log (by norm_num) hx, Nat.cast_ofNat, zpow_add₀ (by norm_num),
        zpow_natCast]
      exact mul_le_mul_of_nonneg_right (hlow.trans hle) hpos.le
  rw [lastPlace, hlog]

section

variable {m : ℕ} {e : ℤ} {acc : Accuracy} {x : ℚ}

private theorem mantissa_ofMantissaAndAccuracy :
    (ExtendedMantissa.ofMantissaAndAccuracy m acc).mantissa = m := by
  rcases acc with _ | (_ | _ | _) <;> rfl

/-- The exponent that a mantissa is shifted to is the last place of the number it locates. The
mantissa is zero only for a number of less than one unit in the least place of all. -/
private theorem targetExponent_eq_lastPlace (hx : Locates (.ofMantissaAndAccuracy m acc) x)
    (hpos : 0 < x) (hm : 0 < m ∨ e ≤ -1074) :
    Format.binary64.targetExponent (totalExponent m e) = lastPlace (x * 2 ^ e) := by
  obtain ⟨hle, hlt⟩ := hx.bounds
  rw [mantissa_ofMantissaAndAccuracy] at hle hlt
  rw [targetExponent_eq]
  rcases Nat.eq_zero_or_pos m with rfl | hpos'
  · have he : e ≤ -1074 := hm.resolve_left (lt_irrefl 0)
    have hsmall : x * 2 ^ e < 2 ^ (-1074 + 53 : ℤ) := by
      calc x * 2 ^ e < 1 * 2 ^ e := mul_lt_mul_of_pos_right (by simpa using hlt) (by positivity)
        _ = 2 ^ e := one_mul _
        _ ≤ 2 ^ (-1074 + 53 : ℤ) := zpow_le_zpow_right₀ (by norm_num) (by omega)
    rw [lastPlace_eq (by positivity) le_rfl hsmall (.inr rfl), Nat.log2_zero]
    omega
  · exact (lastPlace_mul_zpow hpos' hle hlt e).symm

/-- The first shift goes to the last place of the exact result. -/
theorem exists_shiftToTargetExponent (hx : Locates (.ofMantissaAndAccuracy m acc) x) (hpos : 0 < x)
    (hm : 0 < m ∨ e ≤ -1074) (hplace : e ≤ lastPlace (x * 2 ^ e)) :
    ∃ em, UnpackedFloat.shiftToTargetExponent Format.binary64 m e acc =
        (em, lastPlace (x * 2 ^ e)) ∧
      Locates em (x * 2 ^ e / 2 ^ lastPlace (x * 2 ^ e)) := by
  have htarget := targetExponent_eq_lastPlace hx hpos hm
  generalize lastPlace (x * 2 ^ e) = t at *
  refine ⟨_, Prod.ext rfl ?_, ?_⟩
  · simp only [UnpackedFloat.shiftToTargetExponent, UnpackedFloat.shiftToExponent, htarget]
    omega
  · simp only [UnpackedFloat.shiftToTargetExponent, UnpackedFloat.shiftToExponent, htarget]
    have hshift := hx.shiftRight (t - e).toNat
    have hdiv : x * 2 ^ e / 2 ^ t = x / 2 ^ (t - e).toNat := by
      rw [zpow_eq_mul_zpow hplace]
      push_cast
      field_simp
    rwa [hdiv]

/-- The mantissa may need one place more once it is rounded. The second shift makes up for that, and
nothing is lost. -/
theorem canonical_shiftToTargetExponent {n : ℕ} {t : ℤ} (hn : n ≤ 2 ^ 53) (ht : -1074 ≤ t)
    (hfull : 2 ^ 52 ≤ n ∨ t = -1074) :
    ∃ em f, UnpackedFloat.shiftToTargetExponent Format.binary64 n t .exact = (em, f) ∧
      Canonical em.mantissa f ∧ (em.mantissa : ℚ) * 2 ^ f = n * 2 ^ t := by
  simp only [UnpackedFloat.shiftToTargetExponent, UnpackedFloat.shiftToExponent, targetExponent_eq]
  rcases hn.lt_or_eq with hlt | rfl
  · have hlog : n.log2 ≤ 52 := by
      rcases Nat.eq_zero_or_pos n with rfl | hpos
      · simp
      · exact Nat.le_of_lt_succ ((Nat.log2_lt hpos.ne').mpr hlt)
    have hshift : (max ((n.log2 : ℤ) + t - 52) (-1074) - t).toNat = 0 := by omega
    have hself : (ExtendedMantissa.ofMantissaAndAccuracy n .exact >>> 0).mantissa = n := rfl
    rw [hshift]
    refine ⟨_, _, rfl, ⟨?_, ?_, ?_⟩, ?_⟩
    · rwa [hself]
    · omega
    · rw [hself]
      omega
    · rw [hself, Nat.cast_zero, add_zero]
  · have hshift : (max (((2 ^ 53 : ℕ).log2 : ℤ) + t - 52) (-1074) - t).toNat = 1 := by
      rw [Nat.log2_two_pow]
      omega
    rw [hshift]
    have hhalf : (ExtendedMantissa.ofMantissaAndAccuracy (2 ^ 53) .exact >>> 1).mantissa = 2 ^ 52 := rfl
    refine ⟨_, _, rfl, ⟨?_, ?_, .inl ?_⟩, ?_⟩
    · rw [hhalf]
      norm_num
    · omega
    · rw [hhalf]
    · rw [hhalf, Nat.cast_one, zpow_add_one₀ (by norm_num)]
      push_cast
      ring

end

/-- A located number is rounded to the nearest double, as far as the mantissa reaches down to the
last place. -/
theorem stored_roundWithAccuracy {m : ℕ} {e : ℤ} {acc : Accuracy} {x : ℚ}
    (hx : Locates (.ofMantissaAndAccuracy m acc) x) (hpos : 0 < x)
    (hm : 0 < m ∨ e ≤ -1074) (hplace : e ≤ lastPlace (x * 2 ^ e)) (s : Sign) :
    Nearest s (x * 2 ^ e) (stored (UnpackedFloat.roundWithAccuracy Format.binary64 s m e acc)) := by
  obtain ⟨em, hshift, hem⟩ := exists_shiftToTargetExponent hx hpos hm hplace
  have hpos' : 0 < x * 2 ^ e := by positivity
  have hround := hem.roundedMantissa_eq
  have hbound : em.roundedMantissa ≤ 2 ^ 53 := by
    have := roundEven_lastPlace_le (x * 2 ^ e)
    omega
  have hfull : 2 ^ 52 ≤ em.roundedMantissa ∨ lastPlace (x * 2 ^ e) = -1074 := by
    by_cases h : lastPlace (x * 2 ^ e) = -1074
    · exact .inr h
    · have := le_roundEven_lastPlace hpos' h
      exact .inl (by omega)
  obtain ⟨em', f, hcarry, hcanonical, hvalue⟩ :=
    canonical_shiftToTargetExponent hbound (le_lastPlace _) hfull
  have hrounded : (em'.mantissa : ℚ) * 2 ^ f = rounded (x * 2 ^ e) := by
    rw [hvalue, rounded, ← hround, Int.cast_natCast]
  have hlimit : x * 2 ^ e < limit ↔ f ≤ 971 := by
    rw [← rounded_lt_iff hpos', ← hrounded, hcanonical.lt_iff]
  simp only [UnpackedFloat.roundWithAccuracy, hshift, hcarry]
  split_ifs with hzero
  · rw [hzero, Nat.cast_zero, zero_mul] at hrounded
    refine .finite ((rounded_lt_iff hpos').mp ?_) ?_
    · rw [← hrounded]
      positivity
    · rw [← hrounded, stored_zero]
      exact .zero
  · by_cases hf : f ≤ 971
    · rw [stored_finite hcanonical hf]
      refine .finite (hlimit.mpr hf) ?_
      rw [← hrounded]
      exact .finite _
    · rw [stored_finite_of_lt (not_le.mp hf)]
      exact .infinity (not_lt.mp (mt hlimit.mp hf)) rfl

/-- An exact mantissa and exponent are rounded to the nearest double. -/
theorem stored_round (s : Sign) {m : ℕ} (hm : 0 < m) (e : ℤ) :
    Nearest s (m * 2 ^ e) (stored (UnpackedFloat.round Format.binary64 s m e)) := by
  have hvalue : ((m <<< (e - lastPlace (m * 2 ^ e)).toNat : ℕ) : ℚ) *
      2 ^ (e - (e - lastPlace (m * 2 ^ e)).toNat) = m * 2 ^ e := by
    rw [Nat.shiftLeft_eq, zpow_sub₀ (by norm_num), zpow_natCast]
    push_cast
    field_simp
  have htarget := targetExponent_eq_lastPlace (e := e) (locates_exact m) (by exact_mod_cast hm)
    (.inl hm)
  have hm' : 0 < m <<< (e - lastPlace (m * 2 ^ e)).toNat := by
    rw [Nat.shiftLeft_eq]
    positivity
  have hnearest := stored_roundWithAccuracy (locates_exact _) (by exact_mod_cast hm') (.inl hm')
    (by rw [hvalue]; omega) s
  rw [hvalue] at hnearest
  simp only [UnpackedFloat.round, UnpackedFloat.decreaseExponent, htarget]
  exact hnearest

/-- A zero is the double nearest to zero, with either sign. -/
theorem nearest_zero (s : Sign) : Nearest s 0 (.zero s) := by
  refine .finite limit_pos ?_
  rw [rounded_zero]
  exact .zero

/-- The exponent of a product needs no place that the mantissas lack. -/
theorem stored_mul {s t : Sign} {m n : ℕ} {e f : ℤ} (hm : 0 < m) (hn : 0 < n)
    (h : 2 ^ 52 ≤ m * n ∨ e + f ≤ -1074) :
    Nearest (s * t) (m * 2 ^ e * (n * 2 ^ f))
      (stored (UnpackedFloat.mul Format.binary64 (.finite s m e hm) (.finite t n f hn))) := by
  have hmn : 0 < m * n := Nat.mul_pos hm hn
  have hvalue : (m : ℚ) * 2 ^ e * (n * 2 ^ f) = (m * n : ℕ) * 2 ^ (e + f) := by
    rw [zpow_add₀ (by norm_num)]
    push_cast
    ring
  rw [hvalue]
  refine stored_roundWithAccuracy (locates_exact _) (by exact_mod_cast hmn) (.inl hmn) ?_ _
  rcases h with h | h
  · exact le_lastPlace_mul_zpow (by exact_mod_cast h) _
  · exact h.trans (le_lastPlace _)

/-- A product of finite doubles is the double nearest to the exact product. -/
theorem nearest_mul {x y : Float} {s t : Sign} {v w : ℚ} (hx : Measures s v (parts x))
    (hy : Measures t w (parts y)) : Nearest (s * t) (v * w) (parts (x * y)) := by
  rw [parts_mul]
  generalize hpx : parts x = u at hx ⊢
  generalize hpy : parts y = u' at hy ⊢
  cases hx with
  | zero =>
    rw [zero_mul]
    cases hy with
    | zero => exact (stored_zero (s * t)).symm ▸ nearest_zero _
    | finite hn => exact (stored_zero (s * t)).symm ▸ nearest_zero _
  | finite hm =>
    cases hy with
    | zero =>
      rw [mul_zero]
      exact (stored_zero (s * t)).symm ▸ nearest_zero _
    | finite hn =>
      refine stored_mul hm hn ?_
      obtain ⟨hx, -⟩ := canonical_of_parts hpx
      obtain ⟨hy, -⟩ := canonical_of_parts hpy
      rcases hx.full with hfull | he
      · exact .inl (hfull.trans (Nat.le_mul_of_pos_right _ hn))
      · rcases hy.full with hfull | hf
        · exact .inl (hfull.trans (Nat.le_mul_of_pos_left _ hm))
        · exact .inr (by omega)

/-- The accuracy of a quotient tells in which half of the last place it lies. -/
theorem locates_div (a : ℕ) {b : ℕ} (hb : 0 < b) :
    Locates (.ofMantissaAndAccuracy (a / b) (UnpackedFloat.accuracyOfFraction (a % b) b))
      ((a : ℚ) / b) := by
  have hb' : (0 : ℚ) < b := by exact_mod_cast hb
  have hquotient : (a : ℚ) / b = (a / b : ℕ) + (a % b : ℕ) / b := by
    have hsum : (a : ℚ) = b * (a / b : ℕ) + (a % b : ℕ) := by exact_mod_cast (Nat.div_add_mod a b).symm
    field_simp
    exact hsum
  have hlt : ((a % b : ℕ) : ℚ) / b < 1 := by
    rw [div_lt_one hb']
    exact_mod_cast Nat.mod_lt a hb
  rw [hquotient]
  unfold UnpackedFloat.accuracyOfFraction
  generalize a % b = r at *
  split_ifs with hzero
  · simp [hzero, Locates, ExtendedMantissa.ofMantissaAndAccuracy]
  · have hpos : (0 : ℚ) < (r : ℚ) / b := by
      have : (0 : ℚ) < r := by exact_mod_cast Nat.pos_of_ne_zero hzero
      positivity
    cases hcompare : compare (2 * r) b with
    | lt =>
      have hhalf : (r : ℚ) / b < 1 / 2 := by
        rw [div_lt_div_iff₀ hb' (by norm_num)]
        have := Nat.compare_eq_lt.mp hcompare
        norm_cast
        omega
      exact ⟨lt_add_of_pos_right _ hpos, (add_lt_add_iff_left _).mpr hhalf⟩
    | eq =>
      have hhalf : (r : ℚ) / b = 1 / 2 := by
        rw [div_eq_div_iff hb'.ne' (by norm_num)]
        have := Nat.compare_eq_eq.mp hcompare
        norm_cast
        omega
      exact congrArg _ hhalf
    | gt =>
      have hhalf : 1 / 2 < (r : ℚ) / b := by
        rw [div_lt_div_iff₀ (by norm_num) hb']
        have := Nat.compare_eq_gt.mp hcompare
        norm_cast
        omega
      exact ⟨(add_lt_add_iff_left _).mpr hhalf, (add_lt_add_iff_left _).mpr hlt⟩

/-- A quotient has as many places as dividend and divisor tell, or one less. -/
theorem zpow_lt_div {m n : ℕ} (hm : 0 < m) (hn : 0 < n) (e f : ℤ) :
    (2 : ℚ) ^ ((m.log2 + e) - (n.log2 + f) - 1) < m * 2 ^ e / (n * 2 ^ f) := by
  have hlow : (2 : ℚ) ^ (m.log2 : ℤ) ≤ m := by exact_mod_cast Nat.log2_self_le hm.ne'
  have hhigh : (n : ℚ) < 2 ^ ((n.log2 : ℤ) + 1) := by exact_mod_cast @Nat.lt_log2_self n
  have hn' : (0 : ℚ) < n := by exact_mod_cast hn
  rw [lt_div_iff₀ (by positivity)]
  calc (2 : ℚ) ^ ((m.log2 + e) - (n.log2 + f) - 1) * (n * 2 ^ f)
      < 2 ^ ((m.log2 + e) - (n.log2 + f) - 1) * (2 ^ ((n.log2 : ℤ) + 1) * 2 ^ f) := by gcongr
    _ = 2 ^ (m.log2 : ℤ) * 2 ^ e := by
      rw [← zpow_add₀ (by norm_num), ← zpow_add₀ (by norm_num), ← zpow_add₀ (by norm_num)]
      congr 1
      ring
    _ ≤ m * 2 ^ e := by gcongr

/-- A quotient of finite parts is packed as the double nearest to the exact quotient. Above the
least place its mantissa has a unit at least, so that it locates enough. -/
theorem stored_div {s t : Sign} {m n : ℕ} {e f : ℤ} (hm : 0 < m) (hn : 0 < n) :
    Nearest (s / t) (m * 2 ^ e / (n * 2 ^ f))
      (stored (UnpackedFloat.div Format.binary64 (.finite s m e hm) (.finite t n f hn))) := by
  have hplaces := zpow_lt_div hm hn e f
  have hpos : (0 : ℚ) < m * 2 ^ e / (n * 2 ^ f) := by positivity
  have hlog := (Int.zpow_le_iff_le_log (b := 2) (by norm_num) hpos).mp (by exact_mod_cast hplaces.le)
  have hbits : Format.binary64.mantissaBits = 53 := rfl
  have hleast : Format.binary64.minExponent = -1074 := rfl
  simp only [UnpackedFloat.div, UnpackedFloat.divCore, Format.targetExponent, totalExponent, hbits,
    hleast]
  generalize hg : min (e - f) _ = g
  have hvalue : ((m <<< (e - f - g).toNat : ℕ) : ℚ) / n * 2 ^ g = m * 2 ^ e / (n * 2 ^ f) := by
    have hshift : (2 : ℚ) ^ e = 2 ^ (e - f - g).toNat * (2 ^ g * 2 ^ f) := by
      rw [← zpow_natCast, ← zpow_add₀ (by norm_num), ← zpow_add₀ (by norm_num)]
      congr 1
      omega
    rw [Nat.shiftLeft_eq, hshift]
    push_cast
    field_simp
  rw [← hvalue]
  refine stored_roundWithAccuracy (locates_div _ hn) ?_ ?_ ?_ _
  · rw [Nat.shiftLeft_eq]
    positivity
  · by_cases hg' : g ≤ -1074
    · exact .inr hg'
    · left
      have hunit : (2 : ℚ) ^ g < ((m <<< (e - f - g).toNat : ℕ) : ℚ) / n * 2 ^ g := by
        rw [hvalue]
        exact (zpow_le_zpow_right₀ (by norm_num) (by omega)).trans_lt hplaces
      rw [lt_mul_iff_one_lt_left (by positivity), one_lt_div (by positivity)] at hunit
      exact Nat.div_pos (by exact_mod_cast hunit.le) hn
  · rw [hvalue]
    unfold lastPlace
    omega

/-- A quotient of finite doubles is the double nearest to the exact quotient. -/
theorem nearest_div {x y : Float} {s t : Sign} {v w : ℚ} (hx : Measures s v (parts x))
    (hy : Measures t w (parts y)) (hw : w ≠ 0) : Nearest (s / t) (v / w) (parts (x / y)) := by
  rw [parts_div]
  generalize parts x = u at hx ⊢
  generalize parts y = u' at hy ⊢
  cases hy with
  | zero => exact absurd rfl hw
  | finite hn =>
    cases hx with
    | zero =>
      rw [zero_div]
      exact (stored_zero (s / t)).symm ▸ nearest_zero _
    | finite hm => exact stored_div hm hn

end Handheld.Double
