import Handheld.Number.Text
import Handheld.Proofs.Decimals

/-!
# Significant digits

A positive number shown with `n` significant digits is a decimal `d · 10 ^ (e - n + 1)` with `d` of
`n` digits. The decimal nearest to a double, with ten digits, is read as a double that shows the
same digits. Where the decimals are closer together than the doubles it is the very same double;
elsewhere the double nearest to a decimal is closer to it than to any other. Between the two regimes
lies `10 ^ -314`, the one power of ten that neither argument covers.
-/

namespace Handheld

open Double (roundEven rounded lastPlace limit parts Measures)

namespace Scientific

/-- The first digit of `x` counts `10 ^ e`. -/
def Leads (x : ℚ) (e : ℤ) : Prop := 10 ^ e ≤ x ∧ x < 10 ^ (e + 1)

/-- A number has one first digit only. -/
theorem Leads.unique {x : ℚ} {e f : ℤ} (he : Leads x e) (hf : Leads x f) : e = f := by
  have hle : e < f + 1 := (zpow_lt_zpow_iff_right₀ (by norm_num)).mp (he.1.trans_lt hf.2)
  have hge : f < e + 1 := (zpow_lt_zpow_iff_right₀ (by norm_num)).mp (hf.1.trans_lt he.2)
  omega

/-- The exponent that is computed for a fraction is that of its first digit. -/
theorem leads_leadingExponent {num den : ℕ} (hnum : 0 < num) (hden : 0 < den) :
    Leads (num / den) (leadingExponent num den) := by
  have hden' : (0 : ℚ) < den := by exact_mod_cast hden
  have hnum' : (0 : ℚ) < num := by exact_mod_cast hnum
  unfold leadingExponent
  split_ifs with hle
  · obtain ⟨k, hk⟩ : ∃ k, digitCount (num / den) = k + 1 := by
      apply Nat.exists_eq_add_one.mpr
      rw [lt_digitCount_iff, pow_zero]
      exact Nat.div_pos hle hden
    have hlow : 10 ^ k ≤ num / den := lt_digitCount_iff.mp (by omega)
    have hhigh : num / den < 10 ^ (k + 1) := digitCount_le_iff.mp hk.le
    rw [Nat.le_div_iff_mul_le hden] at hlow
    rw [Nat.div_lt_iff_lt_mul hden] at hhigh
    rw [hk, Nat.cast_add_one, add_sub_cancel_right, Leads, le_div_iff₀ hden', div_lt_iff₀ hden']
    exact_mod_cast And.intro hlow hhigh
  · have hpos : 0 < (den - 1) / num := Nat.div_pos (by omega) hnum
    obtain ⟨k, hk⟩ : ∃ k, digitCount ((den - 1) / num) = k + 1 := by
      apply Nat.exists_eq_add_one.mpr
      rwa [lt_digitCount_iff, pow_zero]
    have hlow : 10 ^ k ≤ (den - 1) / num := lt_digitCount_iff.mp (by omega)
    have hhigh : (den - 1) / num < 10 ^ (k + 1) := digitCount_le_iff.mp hk.le
    rw [Nat.le_div_iff_mul_le hnum] at hlow
    rw [Nat.div_lt_iff_lt_mul hnum] at hhigh
    have hlow' : 10 ^ k * num < den := by omega
    have hhigh' : den ≤ 10 ^ (k + 1) * num := by omega
    rw [hk, Leads]
    constructor
    · rw [zpow_neg, zpow_natCast, inv_le_comm₀ (by positivity) (by positivity), inv_div,
        div_le_iff₀ hnum']
      exact_mod_cast hhigh'
    · rw [show -((k + 1 : ℕ) : ℤ) + 1 = -(k : ℤ) by push_cast; ring, zpow_neg, zpow_natCast,
        lt_inv_comm₀ (by positivity) (by positivity), inv_div, lt_div_iff₀ hnum']
      exact_mod_cast hlow'

/-- The quotient is rounded to the nearest integer, halves to the even one. -/
theorem cast_roundDiv (num : ℕ) {den : ℕ} (hden : 0 < den) :
    (roundDiv num den : ℤ) = roundEven (num / den) := by
  have hden' : (0 : ℚ) < den := by exact_mod_cast hden
  have hsum : (num : ℚ) / den = (num / den : ℕ) + (num % den : ℕ) / den := by
    have hnum : (num : ℚ) = den * (num / den : ℕ) + (num % den : ℕ) := by
      exact_mod_cast (Nat.div_add_mod num den).symm
    rw [div_eq_iff hden'.ne', add_mul, div_mul_cancel₀ _ hden'.ne', mul_comm]
    exact hnum
  have hrest : ((num % den : ℕ) : ℚ) < den := by exact_mod_cast Nat.mod_lt num hden
  have hfloor : ⌊(num : ℚ) / den⌋ = (num / den : ℕ) := by
    rw [Int.floor_eq_iff, hsum, Int.cast_natCast]
    exact ⟨by rw [le_add_iff_nonneg_right]; positivity, by
      rw [add_lt_add_iff_left]; exact (div_lt_one hden').mpr hrest⟩
  have hfract : Int.fract ((num : ℚ) / den) = (num % den : ℕ) / den := by
    rw [Int.fract, hfloor, hsum, Int.cast_natCast, add_sub_cancel_left]
  have hbelow : Int.fract ((num : ℚ) / den) < 1 / 2 ↔ 2 * (num % den) < den := by
    rw [hfract, div_lt_div_iff₀ hden' (by norm_num), one_mul, mul_comm]
    exact_mod_cast Iff.rfl
  have habove : 1 / 2 < Int.fract ((num : ℚ) / den) ↔ den < 2 * (num % den) := by
    rw [hfract, div_lt_div_iff₀ (by norm_num) hden', one_mul, mul_comm ((num % den : ℕ) : ℚ)]
    exact_mod_cast Iff.rfl
  simp only [roundEven, roundDiv, hbelow, habove, hfloor]
  split_ifs <;> push_cast <;> rfl

/-- `x` to `n` significant digits is `d · 10 ^ (e - n + 1)`. -/
def Shows (n : ℕ) (x : ℚ) (d : ℕ) (e : ℤ) : Prop :=
  ∃ f, Leads x f ∧
    (roundEven (x * 10 ^ ((n : ℤ) - 1 - f)) = d ∧ d < 10 ^ n ∧ e = f ∨
      roundEven (x * 10 ^ ((n : ℤ) - 1 - f)) = 10 ^ n ∧ d = 10 ^ (n - 1) ∧ e = f + 1)

/-- A zero at the end is trimmed off. -/
private theorem trimmedDigits_mul_ten {d : ℕ} (hd : 0 < d) :
    trimmedDigits (10 * d) = trimmedDigits d := by
  have hdigits : Nat.toDigits 10 (10 * d) = Nat.toDigits 10 d ++ ['0'] :=
    (Nat.toDigits_append_toDigits (b := 10) (d := 0) (by norm_num) hd (by norm_num)).symm
  rw [trimmedDigits, hdigits, List.reverse_append]
  rfl

/-- A power of ten has one digit once it is trimmed. -/
private theorem trimmedDigits_pow (k : ℕ) : trimmedDigits (10 ^ k) = ['1'] := by
  induction k with
  | zero => rfl
  | succ k ih => rw [Nat.pow_succ', trimmedDigits_mul_ten (by positivity), ih]

/-- What is computed is what is shown. -/
theorem Shows.nearest_eq {n num den : ℕ} {d : ℕ} {e : ℤ} (h : Shows n (num / den) d e)
    (hnum : 0 < num) (hden : 0 < den) : nearest n num den = ⟨trimmedDigits d, e⟩ := by
  obtain ⟨f, hf, hround⟩ := h
  obtain rfl : f = leadingExponent num den := hf.unique (leads_leadingExponent hnum hden)
  have hcast : ∀ k : ℤ, ((if 0 ≤ k then roundDiv (num * Nat.pow 10 k.toNat) den
      else roundDiv num (den * Nat.pow 10 (-k).toNat) : ℕ) : ℤ) = roundEven (num / den * 10 ^ k) := by
    intro k
    split_ifs with hk
    · rw [cast_roundDiv _ hden]
      congr 1
      obtain ⟨k, rfl⟩ := Int.eq_ofNat_of_zero_le hk
      change ((num * 10 ^ k : ℕ) : ℚ) / den = num / den * 10 ^ (k : ℤ)
      push_cast
      rw [zpow_natCast]
      ring
    · obtain ⟨k, rfl⟩ : ∃ n : ℕ, k = -(n : ℤ) := ⟨(-k).toNat, by omega⟩
      rw [cast_roundDiv _ (by rw [Nat.pow_eq]; positivity)]
      congr 1
      rw [neg_neg, Int.toNat_natCast]
      change (num : ℚ) / (den * 10 ^ k : ℕ) = _
      push_cast
      rw [zpow_neg, zpow_natCast]
      ring
  have hdigits := hcast (n - 1 - leadingExponent num den)
  unfold nearest
  dsimp only
  generalize (if 0 ≤ (n : ℤ) - 1 - leadingExponent num den then _ else _ : ℕ) = digits at hdigits ⊢
  rw [← hdigits] at hround
  obtain ⟨hd, hlt, rfl⟩ | ⟨hd, rfl, rfl⟩ := hround
  · obtain rfl : digits = d := by exact_mod_cast hd
    exact if_neg hlt.ne
  · have hpow : digits = Nat.pow 10 n := by exact_mod_cast hd
    rw [if_pos hpow, trimmedDigits_pow]

private theorem exists_leads {x : ℚ} (hx : 0 < x) : ∃ e, Leads x e :=
  ⟨Int.log 10 x, Int.zpow_log_le_self (by norm_num) hx, Int.lt_zpow_succ_log_self (by norm_num) x⟩

section Shows

variable {n d : ℕ} {x : ℚ} {e : ℤ}

/-- The number whose first digit counts `10 ^ e`, in units of its `n`-th digit. -/
theorem Leads.scaled (h : Leads x e) (n : ℕ) :
    (10 : ℚ) ^ ((n : ℤ) - 1) ≤ x * 10 ^ ((n : ℤ) - 1 - e) ∧
      x * 10 ^ ((n : ℤ) - 1 - e) < 10 ^ (n : ℤ) := by
  have hpos : (0 : ℚ) < 10 ^ ((n : ℤ) - 1 - e) := by positivity
  constructor
  · calc (10 : ℚ) ^ ((n : ℤ) - 1) = 10 ^ e * 10 ^ ((n : ℤ) - 1 - e) := by
          rw [← zpow_add₀ (by norm_num)]; congr 1; ring
      _ ≤ x * 10 ^ ((n : ℤ) - 1 - e) := mul_le_mul_of_nonneg_right h.1 hpos.le
  · calc x * 10 ^ ((n : ℤ) - 1 - e) < 10 ^ (e + 1) * 10 ^ ((n : ℤ) - 1 - e) :=
          mul_lt_mul_of_pos_right h.2 hpos
      _ = 10 ^ (n : ℤ) := by rw [← zpow_add₀ (by norm_num)]; congr 1; ring

/-- A number scaled to `n` digits rounds to a number of `n` digits or to the next power of ten. -/
private theorem Leads.roundEven_bounds (h : Leads x e) (hn : 0 < n) :
    10 ^ (n - 1) ≤ roundEven (x * 10 ^ ((n : ℤ) - 1 - e)) ∧
      roundEven (x * 10 ^ ((n : ℤ) - 1 - e)) ≤ 10 ^ n := by
  obtain ⟨hlow, hhigh⟩ := h.scaled n
  constructor
  · apply Double.le_roundEven_of_le
    rw [Int.cast_pow, Int.cast_ofNat, ← zpow_natCast, Nat.cast_sub hn, Nat.cast_one]
    exact hlow
  · apply Double.roundEven_le_of_le
    rw [Int.cast_pow, Int.cast_ofNat, ← zpow_natCast]
    exact hhigh.le

/-- Every positive number can be shown. -/
theorem exists_shows (hn : 0 < n) (hx : 0 < x) : ∃ d e, Shows n x d e := by
  obtain ⟨f, hf⟩ := exists_leads hx
  obtain ⟨hlow, hhigh⟩ := hf.roundEven_bounds hn
  rcases hhigh.lt_or_eq with hlt | heq
  · have hnonneg : 0 ≤ roundEven (x * 10 ^ ((n : ℤ) - 1 - f)) :=
      le_trans (by positivity) hlow
    obtain ⟨d, hd⟩ := Int.eq_ofNat_of_zero_le hnonneg
    refine ⟨d, f, f, hf, .inl ⟨hd, ?_, rfl⟩⟩
    rw [hd] at hlt
    exact_mod_cast hlt
  · exact ⟨10 ^ (n - 1), f + 1, f, hf, .inr ⟨heq, rfl, rfl⟩⟩

/-- A number shown with `n` digits has `n` digits. -/
theorem Shows.digits (h : Shows n x d e) (hn : 0 < n) : 10 ^ (n - 1) ≤ d ∧ d < 10 ^ n := by
  obtain ⟨f, hf, ⟨hd, hlt, rfl⟩ | ⟨-, rfl, rfl⟩⟩ := h
  · have hlow := (hf.roundEven_bounds hn).1
    rw [hd] at hlow
    exact ⟨by exact_mod_cast hlow, hlt⟩
  · exact ⟨le_rfl, Nat.pow_lt_pow_right (by norm_num) (by omega)⟩

/-- What is shown is off by at most half a unit of the last digit. -/
theorem Shows.abs_sub_le (h : Shows n x d e) (hn : 0 < n) :
    |d * 10 ^ (e + 1 - n) - x| ≤ 10 ^ (e + 1 - n) / 2 := by
  obtain ⟨f, -, hround⟩ := h
  have hpos : (0 : ℚ) < 10 ^ (f + 1 - n) := by positivity
  have hinverse : (10 : ℚ) ^ ((n : ℤ) - 1 - f) * 10 ^ (f + 1 - n) = 1 := by
    rw [← zpow_add₀ (by norm_num), show (n : ℤ) - 1 - f + (f + 1 - n) = 0 by ring, zpow_zero]
  have hclose : |roundEven (x * 10 ^ ((n : ℤ) - 1 - f)) * 10 ^ (f + 1 - n) - x| ≤
      10 ^ (f + 1 - n) / 2 := by
    have hhalf := mul_le_mul_of_nonneg_right
      (Double.abs_roundEven_sub_le (x * 10 ^ ((n : ℤ) - 1 - f))) hpos.le
    rw [← abs_of_pos hpos, ← abs_mul, abs_of_pos hpos, sub_mul, mul_assoc, hinverse, mul_one] at hhalf
    linarith
  obtain ⟨hd, -, rfl⟩ | ⟨hd, rfl, rfl⟩ := hround
  · rw [hd] at hclose
    exact_mod_cast hclose
  · have hshift : (10 : ℚ) ^ (f + 1 + 1 - n) = 10 * 10 ^ (f + 1 - n) := by
      rw [show f + 1 + 1 - (n : ℤ) = 1 + (f + 1 - n) by ring, zpow_add₀ (by norm_num), zpow_one]
    have hpower : ((10 ^ (n - 1) : ℕ) : ℚ) * 10 = 10 ^ n := by
      exact_mod_cast Nat.pow_pred_mul hn
    rw [hd] at hclose
    rw [hshift, ← mul_assoc, hpower]
    push_cast at hclose
    exact hclose.trans (by linarith)

/-- A number close to a multiple of a power of ten rounds to it at that place. -/
theorem roundEven_mul_zpow {m : ℤ} {k : ℤ} (h : |x - m * 10 ^ k| < 10 ^ k / 2) :
    roundEven (x * 10 ^ (-k)) = m := by
  have hpos : (0 : ℚ) < 10 ^ k := by positivity
  apply Double.roundEven_eq_of_abs_lt
  rw [zpow_neg, ← div_eq_mul_inv, show x / 10 ^ k - m = (x - m * 10 ^ k) / 10 ^ k by
    rw [sub_div, mul_div_cancel_right₀ _ hpos.ne'], abs_div, abs_of_pos hpos, div_lt_iff₀ hpos]
  linarith

/-- What is closer to a decimal than to its neighbours shows it. Below the power of ten of its first
digit only the least mantissa can be shown, and the digits start one place lower. -/
theorem shows_of_close (hn : 0 < n) (hd : 10 ^ (n - 1) ≤ d) (hlt : d < 10 ^ n)
    (hclose : |x - d * 10 ^ (e + 1 - n)| < 10 ^ (e + 1 - n) / 2)
    (hbelow : d = 10 ^ (n - 1) → 10 ^ e - x < 10 ^ (e - n) / 2) : Shows n x d e := by
  have hpos : (0 : ℚ) < 10 ^ (e + 1 - n) := by positivity
  have hleast : (10 : ℚ) ^ e = (10 ^ (n - 1) : ℕ) * 10 ^ (e + 1 - n) := by
    rw [Nat.cast_pow, Nat.cast_ofNat, ← zpow_natCast, ← zpow_add₀ (by norm_num), Nat.cast_sub hn]
    congr 1
    push_cast
    ring
  have hmost : (10 : ℚ) ^ (e + 1) = (10 ^ n : ℕ) * 10 ^ (e + 1 - n) := by
    rw [Nat.cast_pow, Nat.cast_ofNat, ← zpow_natCast, ← zpow_add₀ (by norm_num)]
    congr 1
    ring
  obtain ⟨hlow, hhigh⟩ := abs_lt.mp hclose
  rcases lt_or_ge x (10 ^ e) with hx | hx
  · have heq : d = 10 ^ (n - 1) := by
      by_contra hne
      have hmore : ((10 ^ (n - 1) : ℕ) : ℚ) + 1 ≤ d := by exact_mod_cast lt_of_le_of_ne hd (Ne.symm hne)
      have hmore' := mul_le_mul_of_nonneg_right hmore hpos.le
      rw [hleast] at hx
      linarith
    have hgap := hbelow heq
    have hshift : (10 : ℚ) ^ e = 10 * 10 ^ (e - 1) := by
      rw [show e = 1 + (e - 1) by ring, zpow_add₀ (by norm_num), zpow_one]
      congr 2
      ring
    have hsmall : (10 : ℚ) ^ (e - n) ≤ 10 ^ (e - 1) :=
      zpow_le_zpow_right₀ (by norm_num) (by omega)
    have hpos' : (0 : ℚ) < 10 ^ (e - 1) := by positivity
    refine ⟨e - 1, ⟨by linarith, by rwa [sub_add_cancel]⟩, .inr ⟨?_, heq, by ring⟩⟩
    rw [show (n : ℤ) - 1 - (e - 1) = -(e - n) by ring]
    apply roundEven_mul_zpow
    rw [Int.cast_pow, Int.cast_ofNat, ← zpow_natCast, ← zpow_add₀ (by norm_num),
      show (n : ℤ) + (e - n) = e by ring, abs_sub_comm, abs_of_pos (sub_pos.mpr hx)]
    exact hgap
  · have hless : (d : ℚ) + 1 ≤ (10 ^ n : ℕ) := by exact_mod_cast hlt
    have hless' := mul_le_mul_of_nonneg_right hless hpos.le
    refine ⟨e, ⟨hx, ?_⟩, .inl ⟨?_, hlt, rfl⟩⟩
    · rw [hmost]
      linarith
    · rw [show (n : ℤ) - 1 - e = -(e + 1 - n) by ring]
      exact roundEven_mul_zpow (by exact_mod_cast hclose)

end Shows

/-- The last place of a double is far below its first digits, down to the least doubles. -/
private theorem two_zpow_lastPlace_lt {t : ℚ} {e k : ℤ} (ht : 0 < t) (hlt : t < 10 ^ (e + 1))
    (hk : e - 14 ≤ k) (hleast : -323 ≤ k) : (2 : ℚ) ^ lastPlace t < 10 ^ k := by
  by_cases hplace : lastPlace t = -1074
  · have hsmallest : (2 : ℚ) ^ (-1074 : ℤ) < 10 ^ (-323 : ℤ) := by decide +kernel
    rw [hplace]
    exact hsmallest.trans_le (zpow_le_zpow_right₀ (by norm_num) hleast)
  · have hfull : (2 : ℚ) ^ lastPlace t * 2 ^ (52 : ℤ) ≤ t := by
      rw [← zpow_add₀ (by norm_num)]
      exact Double.le_of_lastPlace ht hplace
    have hbits : (10 : ℚ) ^ (15 : ℤ) < 2 ^ (52 : ℤ) := by norm_num
    have hshift : (10 : ℚ) ^ (e + 1) = 10 ^ (e - 14) * 10 ^ (15 : ℤ) := by
      rw [← zpow_add₀ (by norm_num)]
      congr 1
      ring
    have hpos : (0 : ℚ) < 2 ^ lastPlace t := by positivity
    have hsmall : (2 : ℚ) ^ lastPlace t * 10 ^ (15 : ℤ) < 10 ^ (e - 14) * 10 ^ (15 : ℤ) :=
      calc (2 : ℚ) ^ lastPlace t * 10 ^ (15 : ℤ) < 2 ^ lastPlace t * 2 ^ (52 : ℤ) :=
            mul_lt_mul_of_pos_left hbits hpos
        _ ≤ t := hfull
        _ < 10 ^ (e - 14) * 10 ^ (15 : ℤ) := hshift ▸ hlt
    exact (lt_of_mul_lt_mul_right hsmall (by positivity)).trans_le
      (zpow_le_zpow_right₀ (by norm_num) hk)

/-- Where the decimals are closer together than the doubles, the double itself is read. -/
theorem rounded_eq_of_close {m : ℤ} {t : ℚ} (ht : 0 < t) (hlt : t < 10 ^ (-314 : ℤ))
    (hclose : |t - m * 2 ^ (-1074 : ℤ)| ≤ 10 ^ (-324 : ℤ) / 2) : rounded t = m * 2 ^ (-1074 : ℤ) := by
  have hsubnormal : (10 : ℚ) ^ (-314 : ℤ) < 2 ^ (-1021 : ℤ) := by decide +kernel
  have hunit : (10 : ℚ) ^ (-324 : ℤ) < 2 ^ (-1074 : ℤ) := by decide +kernel
  have hplace : lastPlace t = -1074 :=
    Double.lastPlace_eq ht le_rfl (hlt.trans hsubnormal) (.inr rfl)
  have hpos : (0 : ℚ) < 2 ^ (-1074 : ℤ) := by positivity
  have hround : roundEven (t / 2 ^ (-1074 : ℤ)) = m := by
    apply Double.roundEven_eq_of_abs_lt
    rw [show t / 2 ^ (-1074 : ℤ) - m = (t - m * 2 ^ (-1074 : ℤ)) / 2 ^ (-1074 : ℤ) by
      rw [sub_div, mul_div_cancel_right₀ _ hpos.ne'], abs_div, abs_of_pos hpos, div_lt_iff₀ hpos]
    linarith
  rw [rounded, hplace, hround]

/-- The double nearest to `10 ^ -314` is less than half of its tenth digit below it. -/
theorem sub_rounded_lt : (10 : ℚ) ^ (-314 : ℤ) - rounded (10 ^ (-314 : ℤ)) < 10 ^ (-324 : ℤ) / 2 := by
  have hplace : lastPlace ((10 : ℚ) ^ (-314 : ℤ)) = -1074 :=
    Double.lastPlace_eq (by positivity) le_rfl (by decide +kernel) (.inr rfl)
  have hround : roundEven ((10 : ℚ) ^ (-314 : ℤ) / 2 ^ (-1074 : ℤ)) = 2024022533 :=
    Double.roundEven_eq_of_abs_lt (by decide +kernel)
  rw [rounded, hplace, hround]
  decide +kernel

/-- The double nearest to what ten digits of a double show, shows the same. Among the least doubles
the decimals are closer together than the doubles, so it is the same double. -/
theorem Shows.rounded {m d : ℕ} {k e : ℤ} (h : Shows 10 (m * 2 ^ k) d e) (hk : -1074 ≤ k) :
    Shows 10 (rounded (d * 10 ^ (e - 9))) d e := by
  obtain ⟨hlow, hlt⟩ := h.digits (by norm_num)
  have hclose := h.abs_sub_le (by norm_num)
  have hunit : e + 1 - ((10 : ℕ) : ℤ) = e - 9 := by push_cast; ring
  rw [hunit] at hclose
  have hpos : (0 : ℚ) < 10 ^ (e - 9) := by positivity
  have hd : (0 : ℚ) < d := by exact_mod_cast (by positivity : 0 < 10 ^ (10 - 1)).trans_le hlow
  have ht : (0 : ℚ) < d * 10 ^ (e - 9) := by positivity
  have hupper : (d : ℚ) * 10 ^ (e - 9) < 10 ^ (e + 1) := by
    have hlt' : (d : ℚ) < 10 ^ (10 : ℤ) := by exact_mod_cast hlt
    calc (d : ℚ) * 10 ^ (e - 9) < 10 ^ (10 : ℤ) * 10 ^ (e - 9) := mul_lt_mul_of_pos_right hlt' hpos
      _ = 10 ^ (e + 1) := by rw [← zpow_add₀ (by norm_num)]; congr 1; ring
  rcases le_or_gt e (-315) with he | he
  · have hvalue : (m : ℚ) * 2 ^ k = ((m * 2 ^ (k - -1074).toNat : ℤ) : ℚ) * 2 ^ (-1074 : ℤ) := by
      rw [Double.zpow_eq_mul_zpow hk, ← mul_assoc, Int.cast_mul, Int.cast_natCast]
    have hspacing : (10 : ℚ) ^ (e - 9) ≤ 10 ^ (-324 : ℤ) :=
      zpow_le_zpow_right₀ (by norm_num) (by omega)
    have hsmall : (10 : ℚ) ^ (e + 1) ≤ 10 ^ (-314 : ℤ) :=
      zpow_le_zpow_right₀ (by norm_num) (by omega)
    rw [hvalue] at hclose
    rw [rounded_eq_of_close ht (hupper.trans_le hsmall) (hclose.trans (by linarith)), ← hvalue]
    exact h
  · have hrounded := Double.abs_rounded_sub_le (d * 10 ^ (e - 9))
    apply shows_of_close (by norm_num) hlow hlt
    · rw [hunit]
      have hplace := two_zpow_lastPlace_lt (k := e - 9) ht hupper (by omega) (by omega)
      linarith
    · intro hleast
      have hten : (d : ℚ) * 10 ^ (e - 9) = 10 ^ e := by
        rw [hleast, Nat.cast_pow, Nat.cast_ofNat, ← zpow_natCast, ← zpow_add₀ (by norm_num)]
        congr 1
        push_cast
        ring
      rw [show e - ((10 : ℕ) : ℤ) = e - 10 by push_cast; rfl]
      rw [hten] at ht hupper hrounded ⊢
      rcases (show -314 ≤ e by omega).lt_or_eq with hlarge | rfl
      · have hplace := two_zpow_lastPlace_lt (k := e - 10) ht hupper (by omega) (by omega)
        have hgap := (abs_le.mp hrounded).1
        linarith
      · exact sub_rounded_lt

/-- Only a positive number is shown. -/
theorem Shows.pos {n d : ℕ} {x : ℚ} {e : ℤ} (h : Shows n x d e) : 0 < x := by
  obtain ⟨f, hf, -⟩ := h
  exact (by positivity : (0 : ℚ) < 10 ^ f).trans_le hf.1

/-- The double nearest to what a double shows shows the same. -/
theorem Shows.rounded_of_measures {x : Float} {v : ℚ} {d : ℕ} {e : ℤ} (h : Shows 10 v d e)
    (hx : Measures .positive v (parts x)) : Shows 10 (Double.rounded (d * 10 ^ (e - 9))) d e := by
  have hv := h.pos
  generalize hparts : parts x = u at hx
  cases hx with
  | zero => exact absurd hv (lt_irrefl 0)
  | finite hm => exact h.rounded (Double.canonical_of_parts hparts).1.least

/-- Doubles have small decimal exponents. -/
theorem Shows.natAbs_lt {x : Float} {v : ℚ} {n d : ℕ} {e : ℤ} (h : Shows n v d e)
    (hx : Measures .positive v (parts x)) : e.natAbs < 10000 := by
  have hlimit : limit < 10 ^ (309 : ℤ) := by unfold limit; decide +kernel
  have hsmallest : (10 : ℚ) ^ (-324 : ℤ) < 2 ^ (-1074 : ℤ) := by decide +kernel
  have hv := h.pos
  have hlow : (2 : ℚ) ^ (-1074 : ℤ) ≤ v := by
    generalize hparts : parts x = u at hx
    cases hx with
    | zero => exact absurd hv (lt_irrefl 0)
    | @finite m k hm =>
      have hm' : (1 : ℚ) ≤ m := by exact_mod_cast hm
      have hk : (2 : ℚ) ^ (-1074 : ℤ) ≤ 2 ^ k :=
        zpow_le_zpow_right₀ (by norm_num) (Double.canonical_of_parts hparts).1.least
      exact hk.trans (le_mul_of_one_le_left (by positivity) hm')
  obtain ⟨f, hf, hround⟩ := h
  have hupper : f < 309 :=
    (zpow_lt_zpow_iff_right₀ (by norm_num)).mp (hf.1.trans_lt (hx.lt_limit.trans hlimit))
  have hlower : -324 < f + 1 :=
    (zpow_lt_zpow_iff_right₀ (by norm_num)).mp ((hsmallest.trans_le hlow).trans hf.2)
  obtain ⟨-, -, rfl⟩ | ⟨-, -, rfl⟩ := hround <;> omega

/-- The middle between the two greatest decimals of ten digits around the largest double. What is
above it is shown as `1.797693135ᴇ308`, which no double is near enough to. -/
def readLimit : ℚ := 17976931345 * 10 ^ (298 : ℤ)

/-- What is shown of a number up to the reading limit can be read. -/
theorem Shows.lt_limit {x : ℚ} {d : ℕ} {e : ℤ} (h : Shows 10 x d e) (hx : x ≤ readLimit) :
    d * 10 ^ (e - 9) < limit := by
  have hpower : (10 : ℚ) ^ (308 : ℤ) < limit := by unfold limit; decide +kernel
  have hlimit : readLimit < 10 ^ (309 : ℤ) := by unfold readLimit; decide +kernel
  obtain ⟨f, hf, hround⟩ := h
  have hf' : f < 309 :=
    (zpow_lt_zpow_iff_right₀ (by norm_num)).mp ((hf.1.trans hx).trans_lt hlimit)
  rcases (show f ≤ 308 by omega).lt_or_eq with hlt | rfl
  · refine lt_of_le_of_lt ?_ hpower
    have hle : (10 : ℚ) ^ (f + 1) ≤ 10 ^ (308 : ℤ) := zpow_le_zpow_right₀ (by norm_num) (by omega)
    refine le_trans ?_ hle
    obtain ⟨-, hd, rfl⟩ | ⟨-, rfl, rfl⟩ := hround
    · have hd' : (d : ℚ) ≤ 10 ^ (10 : ℤ) := by exact_mod_cast hd.le
      calc (d : ℚ) * 10 ^ (e - 9) ≤ 10 ^ (10 : ℤ) * 10 ^ (e - 9) :=
            mul_le_mul_of_nonneg_right hd' (by positivity)
        _ = 10 ^ (e + 1) := by rw [← zpow_add₀ (by norm_num)]; congr 1; ring
    · rw [Nat.cast_pow, Nat.cast_ofNat, ← zpow_natCast, ← zpow_add₀ (by norm_num)]
      exact (zpow_right_inj₀ (by norm_num) (by norm_num)).mpr (by push_cast; ring) |>.le
  · have hscaled : x * 10 ^ (((10 : ℕ) : ℤ) - 1 - 308) ≤ 3595386269 / 2 := by
      have hvalue : readLimit * 10 ^ (((10 : ℕ) : ℤ) - 1 - 308) = 3595386269 / 2 := by
        unfold readLimit
        decide +kernel
      exact hvalue ▸ mul_le_mul_of_nonneg_right hx (by positivity)
    have hmiddle : roundEven (3595386269 / 2) = 1797693134 := by decide +kernel
    have hle := hmiddle ▸ Double.roundEven_mono hscaled
    obtain ⟨hd, -, rfl⟩ | ⟨hd, -, -⟩ := hround
    · have hd' : (d : ℚ) ≤ 1797693134 := by
        rw [hd] at hle
        exact_mod_cast hle
      calc (d : ℚ) * 10 ^ (308 - 9 : ℤ) ≤ 1797693134 * 10 ^ (308 - 9 : ℤ) :=
            mul_le_mul_of_nonneg_right hd' (by positivity)
        _ < limit := by unfold limit; decide +kernel
    · rw [hd] at hle
      norm_num at hle

/-- Every double above the reading limit shows the same digits. -/
theorem Shows.eq_of_readLimit_lt {x : ℚ} {d : ℕ} {e : ℤ} (h : Shows 10 x d e) (hx : readLimit < x)
    (hlt : x < limit) : d = 1797693135 ∧ e = 308 := by
  have hlow : (10 : ℚ) ^ (308 : ℤ) ≤ readLimit := by unfold readLimit; decide +kernel
  have hhigh : limit ≤ 10 ^ (308 + 1 : ℤ) := by unfold limit; decide +kernel
  have hbelow : readLimit = 1797693135 * 10 ^ (299 : ℤ) - 10 ^ (299 : ℤ) / 2 := by
    unfold readLimit
    decide +kernel
  have habove : limit ≤ 1797693135 * 10 ^ (299 : ℤ) + 10 ^ (299 : ℤ) / 2 := by
    unfold limit
    decide +kernel
  obtain ⟨f, hf, hround⟩ := h
  obtain rfl : f = 308 := hf.unique ⟨hlow.trans hx.le, hlt.trans_le hhigh⟩
  have hvalue : roundEven (x * 10 ^ (((10 : ℕ) : ℤ) - 1 - 308)) = 1797693135 := by
    rw [show (((10 : ℕ) : ℤ) - 1 - 308) = -299 by norm_num]
    apply roundEven_mul_zpow
    rw [abs_lt, Int.cast_ofNat]
    constructor <;> linarith
  rw [hvalue] at hround
  obtain ⟨hd, -, rfl⟩ | ⟨hd, -, -⟩ := hround
  · exact ⟨by exact_mod_cast hd.symm, rfl⟩
  · norm_num at hd

/-- The digits that the largest doubles show are above the limit. -/
theorem limit_le_shown : limit ≤ 1797693135 * 10 ^ (308 - 9 : ℤ) := by
  unfold limit
  decide +kernel

end Scientific

namespace Number

/-- Numerator and denominator of a double stand for its size. -/
private theorem cast_shiftLeft_div (m : ℕ) (e : ℤ) :
    ((m <<< e.toNat : ℕ) : ℚ) / (1 <<< (-e).toNat : ℕ) = m * 2 ^ e := by
  rw [Nat.shiftLeft_eq, Nat.shiftLeft_eq, one_mul]
  push_cast
  rw [← zpow_natCast, ← zpow_natCast, mul_div_assoc, ← zpow_sub₀ (by norm_num)]
  congr 2
  omega

/-- The text of a positive double shows its ten digits. -/
theorem realText_of_shows {x : Float} {v : ℚ} {d : ℕ} {e : ℤ} (hx : Measures .positive v (parts x))
    (hv : 0 < v) (h : Scientific.Shows 10 v d e) :
    realText x = decimalText ⟨Scientific.trimmedDigits d, e⟩ := by
  generalize hparts : parts x = u at hx
  cases hx with
  | zero => exact absurd hv (lt_irrefl 0)
  | @finite m k hm =>
    have hunpack : x.toModel.unpack = .finite .positive m k hm := hparts
    have hnum : 0 < m <<< k.toNat := by rw [Nat.shiftLeft_eq]; positivity
    have hden : 0 < 1 <<< (-k).toNat := by rw [Nat.shiftLeft_eq]; positivity
    have hshows : Scientific.Shows 10 ((m <<< k.toNat : ℕ) / (1 <<< (-k).toNat : ℕ)) d e := by
      rwa [cast_shiftLeft_div]
    simp only [realText, hunpack]
    rw [shownDigits, hshows.nearest_eq hnum hden]

end Number

end Handheld
