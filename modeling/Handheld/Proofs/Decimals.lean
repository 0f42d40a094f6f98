import Handheld.Decimal.Numeral
import Handheld.Proofs.Nearest

/-!
# Decimals are read as the nearest double

A coefficient and a power of ten become the nearest double, whichever way they are computed: a small
coefficient and a small power are doubles themselves, and only their product or quotient is rounded;
others go through exact arithmetic; and what is far out of range is recognised by its digits.
-/

namespace Handheld

open Float.Model (UnpackedFloat Format)

namespace Double

private theorem natCast_lt_limit {n : ℕ} (hn : n < 2 ^ 53) : (n : ℚ) < limit := by
  have hn' : (n : ℚ) < 2 ^ 53 := by exact_mod_cast hn
  have hpower : (2 : ℚ) ^ 53 ≤ (2 ^ 53 - 1 / 2) * 2 ^ (1 : ℤ) := by norm_num
  refine hn'.trans_le (hpower.trans ?_)
  exact mul_le_mul_of_nonneg_left (zpow_le_zpow_right₀ (by norm_num) (by norm_num)) (by norm_num)

/-- Natural numbers of up to fifty-three binary places are converted exactly. -/
private theorem measures_toFloat {n : ℕ} (hn : n < 2 ^ 53) :
    Measures .positive n (parts n.toUInt64.toFloat) := by
  have hword : n.toUInt64.toNat = n := UInt64.toNat_ofNat_of_lt (hn.trans (by decide))
  have hparts : parts n.toUInt64.toFloat =
      stored (UnpackedFloat.normalize Format.binary64 n.toUInt64.toNat 0 .positive) := rfl
  rw [hparts, hword]
  rcases Nat.eq_zero_or_pos n with rfl | hpos
  · exact stored_zero .positive ▸ .zero
  · have hnearest := stored_round .positive hpos 0
    have hcompare : compare (n : ℤ) 0 = .gt := Int.compare_eq_gt.mpr (by exact_mod_cast hpos)
    simp only [UnpackedFloat.normalize, hcompare, Int.toNat_natCast]
    rw [zpow_zero, mul_one] at hnearest
    exact rounded_natCast hn ▸ hnearest.measures (natCast_lt_limit hn)

/-- The table of powers of ten is exact, entry by entry. -/
private theorem size_powersOfTen : ∀ e : Fin Float.exactlyRepresentablePowersOfTen.size,
    0 < Float.exactlyRepresentablePowersOfTen[e] ∧
      Float.exactlyRepresentablePowersOfTen[e].isFinite = true ∧
      size Float.exactlyRepresentablePowersOfTen[e] = 10 ^ (e : ℕ) := by
  decide +kernel

private theorem measures_powersOfTen {e : ℕ} (he : e < Float.exactlyRepresentablePowersOfTen.size) :
    Measures .positive (10 ^ e) (parts Float.exactlyRepresentablePowersOfTen[e]) := by
  obtain ⟨hpos, hfinite, hsize⟩ := size_powersOfTen ⟨e, he⟩
  exact hsize ▸ measures_of_pos hpos hfinite

private theorem limit_le_zpow {e : ℤ} (he : 400 ≤ e) : limit ≤ 10 ^ e := by
  have hpower : ((2 ^ 1024 : ℕ) : ℚ) ≤ (10 ^ 400 : ℕ) := Nat.cast_le.mpr (by decide +kernel)
  calc limit ≤ 2 ^ 53 * 2 ^ (971 : ℤ) := mul_le_mul_of_nonneg_right (by norm_num) (by positivity)
    _ = ((2 ^ 1024 : ℕ) : ℚ) := by
      rw [Nat.cast_pow, Nat.cast_ofNat, ← zpow_natCast, ← zpow_natCast, ← zpow_add₀ (by norm_num)]
      rfl
    _ ≤ ((10 ^ 400 : ℕ) : ℚ) := hpower
    _ = 10 ^ (400 : ℤ) := by rw [Nat.cast_pow, ← zpow_natCast]; rfl
    _ ≤ 10 ^ e := zpow_le_zpow_right₀ (by norm_num) he

private theorem ten_zpow_le_two_zpow {e : ℤ} (he : e ≤ 0) : (10 : ℚ) ^ e ≤ 2 ^ (3 * e) := by
  obtain ⟨k, rfl⟩ := Int.exists_eq_neg_ofNat he
  rw [zpow_mul, zpow_neg, zpow_neg, zpow_natCast, zpow_natCast]
  exact inv_anti₀ (by positivity) (pow_le_pow_left₀ (by norm_num) (by norm_num) k)

/-- A decimal with a small enough exponent is less than half of the least double, however many
digits it has. -/
private theorem mul_zpow_lt {m : ℕ} {e : ℤ} (he : e < -(2 ^ 11 + (m.log2 : ℤ))) :
    (m : ℚ) * 10 ^ e < 2 ^ (-1075 : ℤ) := by
  have hm : (m : ℚ) < 2 ^ ((m.log2 : ℤ) + 1) := by exact_mod_cast @Nat.lt_log2_self m
  calc (m : ℚ) * 10 ^ e < 2 ^ ((m.log2 : ℤ) + 1) * 10 ^ e :=
        mul_lt_mul_of_pos_right hm (by positivity)
    _ ≤ 2 ^ ((m.log2 : ℤ) + 1) * 2 ^ (3 * e) :=
        mul_le_mul_of_nonneg_left (ten_zpow_le_two_zpow (by omega)) (by positivity)
    _ = 2 ^ ((m.log2 : ℤ) + 1 + 3 * e) := (zpow_add₀ (by norm_num) _ _).symm
    _ ≤ 2 ^ (-1075 : ℤ) := zpow_le_zpow_right₀ (by norm_num) (by omega)

/-- What is below half of the least place is read as zero. -/
theorem nearest_zero_of_lt {x : ℚ} (hx : 0 < x) (hlt : x < 2 ^ (-1075 : ℤ)) :
    Nearest .positive x (.zero .positive) := by
  have hrounded := rounded_eq_zero hx hlt
  refine .finite ((rounded_lt_iff hx).mp ?_) (hrounded ▸ .zero)
  rw [hrounded]
  positivity

private theorem limit_le_mul_zpow {m : ℕ} (hm : 0 < m) {e : ℤ} (he : 400 ≤ e) :
    limit ≤ m * 10 ^ e :=
  (limit_le_zpow he).trans (le_mul_of_one_le_left (by positivity) (by exact_mod_cast hm))

/-- A decimal is packed as the double nearest to it. Very large and very small exponents are cut off
first; the others are scaled by a power of ten. -/
theorem stored_ofScientific (m : ℕ) (e : ℤ) :
    Nearest .positive (m * 10 ^ e) (stored (UnpackedFloat.ofScientific Format.binary64 m e)) := by
  have hbits : Format.binary64.mantissaBits = 53 := rfl
  unfold UnpackedFloat.ofScientific
  split_ifs with hm hlarge hsmall he
  · rw [hm, Nat.cast_zero, zero_mul, stored_zero]
    exact nearest_zero .positive
  · rw [stored_infinity]
    exact .infinity (limit_le_mul_zpow (Nat.pos_of_ne_zero hm) (by norm_num at hlarge; omega)) rfl
  · rw [stored_zero]
    have hm' : (0 : ℚ) < m := by exact_mod_cast Nat.pos_of_ne_zero hm
    exact nearest_zero_of_lt (by positivity) (mul_zpow_lt hsmall)
  · have hm' : 0 < m := Nat.pos_of_ne_zero hm
    have hshift : 2 ^ 52 ≤ m <<< 53 * 10 ^ e.toNat := by
      rw [Nat.shiftLeft_eq]
      have hpower : 0 < 10 ^ e.toNat := by positivity
      nlinarith
    have hvalue : (m : ℚ) * (10 : ℚ) ^ e =
        (m <<< 53 : ℕ) * 2 ^ (-53 : ℤ) * ((10 ^ e.toNat : ℕ) * 2 ^ (0 : ℤ)) := by
      obtain ⟨k, rfl⟩ := Int.eq_ofNat_of_zero_le he
      rw [Nat.shiftLeft_eq, Int.toNat_natCast, zpow_natCast, zpow_neg, zpow_zero]
      push_cast
      field_simp
    rw [hvalue]
    exact stored_mul (s := .positive) (t := .positive) _ _ (.inl hshift)
  · have hvalue : (m : ℚ) * (10 : ℚ) ^ e =
        m * 2 ^ (0 : ℤ) / ((10 ^ (-e).toNat : ℕ) * 2 ^ (0 : ℤ)) := by
      obtain ⟨k, rfl⟩ := Int.exists_eq_neg_ofNat (not_le.mp he).le
      rw [neg_neg, Int.toNat_natCast, zpow_neg, zpow_natCast, zpow_zero]
      push_cast
      rw [mul_one, mul_one, div_eq_mul_inv]
    rw [hvalue]
    exact stored_div (s := .positive) (t := .positive) _ _

/-- A decimal literal is the double nearest to it. Small ones are computed from an exact table. -/
theorem nearest_ofScientific (m : ℕ) (negative : Bool) (e : ℕ) :
    Nearest .positive (m * 10 ^ (if negative then -(e : ℤ) else e))
      (parts (Float.ofScientific m negative e)) := by
  unfold Float.ofScientific
  cases negative with
  | false =>
    simp only [Bool.false_eq_true, if_false]
    split_ifs with hsmall
    · rw [zpow_natCast]
      exact nearest_mul (measures_toFloat hsmall.1) (measures_powersOfTen _)
    · exact stored_ofScientific m e
  | true =>
    simp only [if_true]
    split_ifs with hsmall
    · rw [zpow_neg, zpow_natCast, ← div_eq_mul_inv]
      exact nearest_div (measures_toFloat hsmall.1) (measures_powersOfTen _) (by positivity)
    · have hneg : Int.negOfNat e = -(e : ℤ) := Int.negOfNat_eq
      rw [hneg]
      exact stored_ofScientific m (-e)

/-- A natural number is converted to the double nearest to it. -/
theorem nearest_ofNat (n : ℕ) : Nearest .positive n (parts (Float.ofNat n)) := by
  change Nearest .positive n (parts (Float.ofScientific n false 0))
  simpa using nearest_ofScientific n false 0

/-- A natural number of at most fifty-three binary digits is a double. -/
theorem measures_ofNat {n : ℕ} (hn : n < 2 ^ 53) : Measures .positive n (parts (Float.ofNat n)) :=
  rounded_natCast hn ▸ (nearest_ofNat n).measures (natCast_lt_limit hn)

end Double

namespace Scientific

/-- The number of digits is told from the powers of ten. -/
theorem digitCount_le_iff {n k : ℕ} : digitCount n ≤ k ↔ n < 10 ^ k := by
  unfold digitCount
  split_ifs with hn
  · simp [hn]
  · rcases Nat.eq_zero_or_pos k with rfl | hk
    · simp only [pow_zero, Nat.lt_one_iff, hn, iff_false, not_le]
      exact Nat.length_toDigits_pos
    · exact Nat.length_toDigits_le_iff (by norm_num) hk

/-- A number has more than `k` digits exactly from `10 ^ k` on. -/
theorem lt_digitCount_iff {n k : ℕ} : k < digitCount n ↔ 10 ^ k ≤ n := by
  rw [← not_le, digitCount_le_iff, not_lt]

end Scientific

open Double in
/-- A decimal is read as the nearest double. -/
theorem nearest_nearestDouble (coefficient : ℕ) (exponent : ℤ) :
    Nearest .positive (coefficient * 10 ^ exponent) (parts (nearestDouble coefficient exponent)) := by
  unfold nearestDouble
  dsimp only
  generalize hlead : (Scientific.digitCount coefficient : ℤ) + exponent = lead
  split_ifs with hsmall hlarge hneg
  · change Nearest _ _ (.zero .positive)
    rcases Nat.eq_zero_or_pos coefficient with rfl | hpos
    · simpa using nearest_zero .positive
    · have hlead' : lead < -400 := hsmall.resolve_left hpos.ne'
      have hdigits : (coefficient : ℚ) < 10 ^ (Scientific.digitCount coefficient : ℤ) := by
        exact_mod_cast Scientific.digitCount_le_iff.mp le_rfl
      refine nearest_zero_of_lt (by positivity) ?_
      calc (coefficient : ℚ) * 10 ^ exponent
          < 10 ^ (Scientific.digitCount coefficient : ℤ) * 10 ^ exponent :=
            mul_lt_mul_of_pos_right hdigits (by positivity)
        _ = 10 ^ lead := by rw [← zpow_add₀ (by norm_num), hlead]
        _ ≤ 2 ^ (3 * lead) := ten_zpow_le_two_zpow (by omega)
        _ ≤ 2 ^ (-1075 : ℤ) := zpow_le_zpow_right₀ (by norm_num) (by omega)
  · refine .infinity ?_ rfl
    have hpos : 0 < Scientific.digitCount coefficient := by
      rw [Scientific.lt_digitCount_iff]
      omega
    have hdigits : (10 : ℚ) ^ ((Scientific.digitCount coefficient : ℤ) - 1) ≤ coefficient := by
      have hle := Scientific.lt_digitCount_iff.mp (Nat.sub_one_lt hpos.ne')
      rw [← Nat.cast_one, ← Nat.cast_sub hpos, zpow_natCast]
      exact_mod_cast hle
    calc limit ≤ 10 ^ (lead - 1) := limit_le_zpow (by omega)
      _ = 10 ^ ((Scientific.digitCount coefficient : ℤ) - 1) * 10 ^ exponent := by
        rw [← zpow_add₀ (by norm_num)]
        congr 1
        omega
      _ ≤ coefficient * 10 ^ exponent := mul_le_mul_of_nonneg_right hdigits (by positivity)
  · have hnearest := nearest_ofScientific coefficient true (-exponent).toNat
    rwa [if_pos rfl, Int.toNat_of_nonneg (by omega), neg_neg] at hnearest
  · have hnearest := nearest_ofScientific coefficient false exponent.toNat
    rwa [if_neg Bool.false_ne_true, Int.toNat_of_nonneg (by omega)] at hnearest

end Handheld
