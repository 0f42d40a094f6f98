import Mathlib

/-!
# Rounding to the nearest double

A positive rational is rounded to a multiple of a power of two, its last place: there are
fifty-three binary digits from the first digit to the last place, or fewer if the last place would
be below that of the least double. What the operations on doubles compute is stated in these terms.
-/

namespace Handheld.Double

/-- The integer nearest to `x`; a half goes to the even neighbour. -/
def roundEven (x : ℚ) : ℤ :=
  if Int.fract x < 1 / 2 then ⌊x⌋
  else if 1 / 2 < Int.fract x then ⌊x⌋ + 1
  else ⌊x⌋ + ⌊x⌋ % 2

/-- An integer is nearest to itself. -/
private theorem roundEven_intCast (n : ℤ) : roundEven n = n := by
  simp [roundEven]

private theorem floor_le_roundEven (x : ℚ) : ⌊x⌋ ≤ roundEven x := by
  unfold roundEven
  split_ifs <;> omega

private theorem roundEven_le_floor_add_one (x : ℚ) : roundEven x ≤ ⌊x⌋ + 1 := by
  unfold roundEven
  split_ifs <;> omega

/-- A larger number has no smaller nearest integer. -/
theorem roundEven_mono : Monotone roundEven := by
  intro x y hxy
  rcases (Int.floor_mono hxy).lt_or_eq with hlt | heq
  · calc roundEven x ≤ ⌊x⌋ + 1 := roundEven_le_floor_add_one x
      _ ≤ ⌊y⌋ := hlt
      _ ≤ roundEven y := floor_le_roundEven y
  · have hfract : Int.fract x ≤ Int.fract y := by
      rw [Int.fract, Int.fract, heq]
      linarith
    unfold roundEven
    rw [heq]
    split_ifs <;> first | omega | linarith

/-- The nearest integer is at most a half away. -/
theorem abs_roundEven_sub_le (x : ℚ) : |(roundEven x : ℚ) - x| ≤ 1 / 2 := by
  have hx := Int.floor_add_fract x
  have hnonneg := Int.fract_nonneg x
  have hlt := Int.fract_lt_one x
  rw [abs_le]
  unfold roundEven
  split_ifs with hlow hhigh
  · constructor <;> linarith
  · push_cast
    constructor <;> linarith
  · have hparity : (0 : ℚ) ≤ ((⌊x⌋ % 2 : ℤ) : ℚ) ∧ ((⌊x⌋ % 2 : ℤ) : ℚ) ≤ 1 := by
      constructor <;> norm_cast <;> omega
    push_cast at hparity ⊢
    constructor <;> linarith

/-- Rounding does not go beyond an integer from below. -/
theorem roundEven_le_of_le {x : ℚ} {n : ℤ} (h : x ≤ n) : roundEven x ≤ n :=
  (roundEven_mono h).trans_eq (roundEven_intCast n)

/-- Rounding does not go beyond an integer from above. -/
theorem le_roundEven_of_le {x : ℚ} {n : ℤ} (h : (n : ℚ) ≤ x) : n ≤ roundEven x :=
  (roundEven_intCast n).symm.trans_le (roundEven_mono h)

/-- An integer that is less than a half away is the nearest one. -/
theorem roundEven_eq_of_abs_lt {x : ℚ} {n : ℤ} (h : |x - n| < 1 / 2) : roundEven x = n := by
  have hround := abs_roundEven_sub_le x
  rw [abs_lt] at h
  rw [abs_le] at hround
  have hup : ((roundEven x : ℤ) : ℚ) < ((n + 1 : ℤ) : ℚ) := by push_cast; linarith
  have hdown : ((n - 1 : ℤ) : ℚ) < ((roundEven x : ℤ) : ℚ) := by push_cast; linarith
  rw [Int.cast_lt] at hup hdown
  omega

/-- The exponent of the last place of the doubles next to `x`. -/
def lastPlace (x : ℚ) : ℤ :=
  max (Int.log 2 x - 52) (-1074)

/-- The last place is not below that of the least doubles. -/
theorem le_lastPlace (x : ℚ) : -1074 ≤ lastPlace x :=
  le_max_right _ _

/-- There are at most fifty-three digits up to the last place. -/
theorem lt_of_lastPlace (x : ℚ) : x < 2 ^ (lastPlace x + 53) := by
  calc x < 2 ^ (Int.log 2 x + 1) := Int.lt_zpow_succ_log_self (by norm_num) x
    _ ≤ 2 ^ (lastPlace x + 53) := by
      apply zpow_le_zpow_right₀ (by norm_num)
      have := le_max_left (Int.log 2 x - 52) (-1074)
      simp only [lastPlace]
      omega

/-- There are fifty-three digits up to a last place that is not the least. -/
theorem le_of_lastPlace {x : ℚ} (hx : 0 < x) (h : lastPlace x ≠ -1074) :
    2 ^ (lastPlace x + 52) ≤ x := by
  have hlog : lastPlace x + 52 = Int.log 2 x := by
    rcases max_choice (Int.log 2 x - 52) (-1074) with hmax | hmax
    · simp only [lastPlace, hmax]
      omega
    · exact absurd hmax h
  rw [hlog]
  exact Int.zpow_log_le_self (by norm_num) hx

/-- The last place is determined by the fifty-three binary places that a positive number fills from
it on, or by the least place of all. -/
theorem lastPlace_eq {x : ℚ} {e : ℤ} (hx : 0 < x) (he : -1074 ≤ e) (hlt : x < 2 ^ (e + 53))
    (hle : 2 ^ (e + 52) ≤ x ∨ e = -1074) : lastPlace x = e := by
  have hlog : Int.log 2 x < e + 53 := (Int.lt_zpow_iff_log_lt (by norm_num) hx).mp hlt
  rcases hle with hle | rfl
  · have hlog' : e + 52 ≤ Int.log 2 x := (Int.zpow_le_iff_le_log (by norm_num) hx).mp hle
    unfold lastPlace
    omega
  · unfold lastPlace
    omega

/-- With fifty-three digits before the point the last place is not behind it. -/
theorem le_lastPlace_mul_zpow {x : ℚ} (hx : 2 ^ 52 ≤ x) (e : ℤ) : e ≤ lastPlace (x * 2 ^ e) := by
  have hpos : (0 : ℚ) < 2 ^ e := by positivity
  have hle : (2 : ℚ) ^ (52 + e) ≤ x * 2 ^ e := by
    rw [zpow_add₀ (by norm_num)]
    exact mul_le_mul_of_nonneg_right (by exact_mod_cast hx) hpos.le
  have hlog := (Int.zpow_le_iff_le_log (b := 2) (by norm_num) (by positivity)).mp hle
  unfold lastPlace
  omega

/-- The nonnegative rational `x` rounded at its last place. -/
def rounded (x : ℚ) : ℚ :=
  roundEven (x / 2 ^ lastPlace x) * 2 ^ lastPlace x

/-- Zero stays as it is. -/
theorem rounded_zero : rounded 0 = 0 := by
  simp [rounded, roundEven]

/-- Rounding does not go beyond a multiple of the last place from below. -/
private theorem rounded_le_of_le {x : ℚ} {n : ℤ} (h : x ≤ n * 2 ^ lastPlace x) :
    rounded x ≤ n * 2 ^ lastPlace x := by
  have hpos : (0 : ℚ) < 2 ^ lastPlace x := by positivity
  have hn := roundEven_le_of_le ((div_le_iff₀ hpos).mpr h)
  exact mul_le_mul_of_nonneg_right (by exact_mod_cast hn) hpos.le

/-- Rounding does not go beyond a multiple of the last place from above. -/
private theorem le_rounded_of_le {x : ℚ} {n : ℤ} (h : n * 2 ^ lastPlace x ≤ x) :
    n * 2 ^ lastPlace x ≤ rounded x := by
  have hpos : (0 : ℚ) < 2 ^ lastPlace x := by positivity
  have hn := le_roundEven_of_le ((le_div_iff₀ hpos).mpr h)
  exact mul_le_mul_of_nonneg_right (by exact_mod_cast hn) hpos.le

/-- Rounding moves a number by at most half of its last place. -/
theorem abs_rounded_sub_le (x : ℚ) : |rounded x - x| ≤ 2 ^ lastPlace x / 2 := by
  have hpos : (0 : ℚ) < 2 ^ lastPlace x := by positivity
  have hx : x / 2 ^ lastPlace x * 2 ^ lastPlace x = x := div_mul_cancel₀ x hpos.ne'
  calc |rounded x - x|
      = |(roundEven (x / 2 ^ lastPlace x) : ℚ) - x / 2 ^ lastPlace x| * 2 ^ lastPlace x := by
        rw [← abs_of_pos hpos, ← abs_mul, sub_mul, abs_of_pos hpos, hx, rounded]
    _ ≤ 1 / 2 * 2 ^ lastPlace x := by
        exact mul_le_mul_of_nonneg_right (abs_roundEven_sub_le _) hpos.le
    _ = 2 ^ lastPlace x / 2 := by ring

/-- A power of two is a number of units in any lower place. -/
theorem zpow_eq_mul_zpow {i j : ℤ} (h : i ≤ j) :
    (2 : ℚ) ^ j = ((2 ^ (j - i).toNat : ℤ) : ℚ) * 2 ^ i := by
  have hij : j = ((j - i).toNat : ℤ) + i := by omega
  rw [Int.cast_pow, Int.cast_ofNat, ← zpow_natCast, ← zpow_add₀ (by norm_num), ← hij]

/-- What has no digit beyond the last place of `x` bounds the nearest double if it bounds `x`. -/
theorem rounded_le_of_le_mul {x : ℚ} {n e : ℤ} (he : lastPlace x ≤ e) (h : x ≤ n * 2 ^ e) :
    rounded x ≤ n * 2 ^ e := by
  rw [zpow_eq_mul_zpow he, ← mul_assoc, ← Int.cast_mul] at h ⊢
  exact rounded_le_of_le h

/-- Rounding does not go beyond a multiple of a higher place from above. -/
private theorem mul_le_rounded_of_le {x : ℚ} {n e : ℤ} (he : lastPlace x ≤ e) (h : n * 2 ^ e ≤ x) :
    n * 2 ^ e ≤ rounded x := by
  rw [zpow_eq_mul_zpow he, ← mul_assoc, ← Int.cast_mul] at h ⊢
  exact le_rounded_of_le h

/-- What has no digit beyond its last place is not rounded. -/
theorem rounded_eq_self {x : ℚ} {n e : ℤ} (he : lastPlace x ≤ e) (hx : x = n * 2 ^ e) :
    rounded x = x := by
  apply le_antisymm
  · nth_rewrite 2 [hx]
    exact rounded_le_of_le_mul he hx.le
  · nth_rewrite 1 [hx]
    exact mul_le_rounded_of_le he hx.ge

/-- Natural numbers of up to fifty-three binary places stay as they are. -/
theorem rounded_natCast {n : ℕ} (hn : n < 2 ^ 53) : rounded n = n := by
  rcases Nat.eq_zero_or_pos n with rfl | hpos
  · simpa using rounded_zero
  · have hplace : lastPlace n ≤ 0 := by
      have hlog := (Int.lt_zpow_iff_log_lt (b := 2) (x := 53) (r := (n : ℚ)) (by norm_num)
        (by exact_mod_cast hpos)).mp (by exact_mod_cast hn)
      unfold lastPlace
      omega
    exact rounded_eq_self hplace (n := n) (by simp)

/-- Less than half of the least place is nothing. -/
theorem rounded_eq_zero {x : ℚ} (hx : 0 < x) (hlt : x < 2 ^ (-1075 : ℤ)) : rounded x = 0 := by
  have hplace : lastPlace x = -1074 :=
    lastPlace_eq hx le_rfl (hlt.trans (zpow_lt_zpow_right₀ (by norm_num) (by norm_num))) (.inr rfl)
  have hunit : (2 : ℚ) ^ (-1075 : ℤ) = 1 / 2 * 2 ^ (-1074 : ℤ) := by
    rw [show (-1074 : ℤ) = -1075 + 1 by norm_num, zpow_add_one₀ (by norm_num)]
    ring
  have hhalf : x / 2 ^ (-1074 : ℤ) < 1 / 2 := by rwa [div_lt_iff₀ (by positivity), ← hunit]
  have hpos : 0 < x / 2 ^ (-1074 : ℤ) := by positivity
  have hround : roundEven (x / 2 ^ (-1074 : ℤ)) = 0 := by
    apply roundEven_eq_of_abs_lt
    rwa [Int.cast_zero, sub_zero, abs_of_pos hpos]
  rw [rounded, hplace, hround, Int.cast_zero, zero_mul]

/-- The rounded mantissa of a number has at most fifty-three binary places, or is the next power of
two. -/
theorem roundEven_lastPlace_le (x : ℚ) : roundEven (x / 2 ^ lastPlace x) ≤ 2 ^ 53 := by
  have hx := lt_of_lastPlace x
  rw [zpow_eq_mul_zpow (i := lastPlace x) (by omega), ← div_lt_iff₀ (by positivity)] at hx
  refine (roundEven_le_of_le hx.le).trans_eq ?_
  rw [show (lastPlace x + 53 - lastPlace x).toNat = 53 by omega]

/-- The rounded mantissa of a number above the least doubles has fifty-three binary places. -/
theorem le_roundEven_lastPlace {x : ℚ} (hx : 0 < x) (h : lastPlace x ≠ -1074) :
    2 ^ 52 ≤ roundEven (x / 2 ^ lastPlace x) := by
  have hx := le_of_lastPlace hx h
  rw [zpow_eq_mul_zpow (i := lastPlace x) (by omega), ← le_div_iff₀ (by positivity)] at hx
  refine le_trans (le_of_eq ?_) (le_roundEven_of_le hx)
  rw [show (lastPlace x + 52 - lastPlace x).toNat = 52 by omega]

/-- The middle between the largest double and `2 ^ 1024`, which is where doubles overflow. -/
def limit : ℚ := (2 ^ 53 - 1 / 2) * 2 ^ (971 : ℤ)

theorem limit_pos : 0 < limit := by
  unfold limit
  positivity

private theorem two_zpow_1024 : (2 : ℚ) ^ (1024 : ℤ) = ((2 ^ 53 : ℤ) : ℚ) * 2 ^ (971 : ℤ) :=
  zpow_eq_mul_zpow (i := 971) (j := 1024) (by norm_num)

private theorem two_zpow_1023 : (2 : ℚ) ^ (1023 : ℤ) = ((2 ^ 52 : ℤ) : ℚ) * 2 ^ (971 : ℤ) :=
  zpow_eq_mul_zpow (i := 971) (j := 1023) (by norm_num)

/-- The largest odd mantissa rounds up from its middle on. -/
theorem roundEven_lt_iff {x : ℚ} : roundEven x < 2 ^ 53 ↔ x < 2 ^ 53 - 1 / 2 := by
  constructor
  · intro h
    by_contra hx
    have hmiddle : roundEven (2 ^ 53 - 1 / 2) = 2 ^ 53 := by decide +kernel
    exact absurd (roundEven_mono (not_lt.mp hx)) (by omega)
  · intro h
    have hround := (abs_le.mp (abs_roundEven_sub_le x)).2
    have hlt : (roundEven x : ℚ) < ((2 ^ 53 : ℤ) : ℚ) := by push_cast; linarith
    exact_mod_cast hlt

/-- A number overflows when it is rounded exactly from the limit on. -/
theorem rounded_lt_iff {x : ℚ} (hx : 0 < x) : rounded x < 2 ^ (1024 : ℤ) ↔ x < limit := by
  have hpos : (0 : ℚ) < 2 ^ (971 : ℤ) := by positivity
  rcases lt_or_ge x (2 ^ (1023 : ℤ)) with hsmall | hlarge
  · have hplace : lastPlace x ≤ 971 := by
      have hlog := (Int.lt_zpow_iff_log_lt (b := 2) (by norm_num) hx).mp hsmall
      unfold lastPlace
      omega
    rw [two_zpow_1023] at hsmall
    have hround := rounded_le_of_le_mul hplace hsmall.le
    rw [two_zpow_1024]
    refine iff_of_true (hround.trans_lt ?_) (hsmall.trans ?_)
    · exact mul_lt_mul_of_pos_right (by norm_num) hpos
    · exact mul_lt_mul_of_pos_right (by norm_num) hpos
  rcases lt_or_ge x (2 ^ (1024 : ℤ)) with hbelow | habove
  · have hplace : lastPlace x = 971 := lastPlace_eq hx (by norm_num) hbelow (.inl hlarge)
    rw [rounded, hplace, two_zpow_1024, mul_lt_mul_iff_left₀ hpos, Int.cast_lt, roundEven_lt_iff,
      limit, div_lt_iff₀ hpos]
  · refine iff_of_false (not_lt.mpr ?_) (not_lt.mpr ?_)
    · have hlog := (Int.zpow_le_iff_le_log (b := 2) (by norm_num) hx).mp habove
      have hplace : 972 ≤ lastPlace x := by
        unfold lastPlace
        omega
      have hfirst := le_of_lastPlace hx (by omega)
      rw [zpow_eq_mul_zpow (i := lastPlace x) (by omega)] at hfirst
      refine le_trans ?_ (le_rounded_of_le hfirst)
      rw [← zpow_eq_mul_zpow (by omega)]
      exact zpow_le_zpow_right₀ (by norm_num) (by omega)
    · rw [two_zpow_1024] at habove
      exact (mul_le_mul_of_nonneg_right (by norm_num) hpos.le).trans habove

/-- A mantissa with the exponent that a double has it with, were there no largest one. -/
structure Canonical (m : ℕ) (e : ℤ) : Prop where
  lt : m < 2 ^ 53
  least : -1074 ≤ e
  full : 2 ^ 52 ≤ m ∨ e = -1074

namespace Canonical

variable {m n : ℕ} {e f : ℤ}

/-- The last place of a positive double is its exponent. -/
theorem lastPlace_eq (h : Canonical m e) (hm : 0 < m) : lastPlace (m * 2 ^ e) = e := by
  have hpos : (0 : ℚ) < 2 ^ e := by positivity
  apply Double.lastPlace_eq (by positivity) h.least
  · rw [zpow_add₀ (by norm_num), mul_comm]
    exact mul_lt_mul_of_pos_left (by exact_mod_cast h.lt) hpos
  · refine h.full.imp_left fun hfull => ?_
    rw [zpow_add₀ (by norm_num), mul_comm]
    exact mul_le_mul_of_nonneg_right (by exact_mod_cast hfull) hpos.le

/-- A mantissa and exponent of a double stay as they are. -/
theorem rounded_eq (h : Canonical m e) (hm : 0 < m) : rounded (m * 2 ^ e) = m * 2 ^ e :=
  rounded_eq_self (h.lastPlace_eq hm).le (n := m) (by simp)

/-- A positive double has one mantissa and one exponent. -/
theorem eq_of_value_eq (h : Canonical m e) (h' : Canonical n f) (hm : 0 < m) (hn : 0 < n)
    (hvalue : (m : ℚ) * 2 ^ e = n * 2 ^ f) : m = n ∧ e = f := by
  have he : e = f := by rw [← h.lastPlace_eq hm, hvalue, h'.lastPlace_eq hn]
  subst he
  have hpos : (0 : ℚ) < 2 ^ e := by positivity
  exact ⟨by exact_mod_cast mul_right_cancel₀ hpos.ne' hvalue, rfl⟩

/-- The exponent tells whether a double is beyond the largest. -/
theorem lt_iff (h : Canonical m e) : (m : ℚ) * 2 ^ e < 2 ^ (1024 : ℤ) ↔ e ≤ 971 := by
  have hpos : (0 : ℚ) < 2 ^ e := by positivity
  constructor
  · intro hlt
    by_contra he
    have hfull : 2 ^ 52 ≤ m := h.full.resolve_right (by omega)
    have hle : (2 : ℚ) ^ (1024 : ℤ) ≤ m * 2 ^ e := by
      calc (2 : ℚ) ^ (1024 : ℤ) ≤ 2 ^ (52 + e) := zpow_le_zpow_right₀ (by norm_num) (by omega)
        _ = 2 ^ 52 * 2 ^ e := by rw [zpow_add₀ (by norm_num)]; norm_num
        _ ≤ m * 2 ^ e := mul_le_mul_of_nonneg_right (by exact_mod_cast hfull) hpos.le
    exact absurd hlt (not_lt.mpr hle)
  · intro he
    calc (m : ℚ) * 2 ^ e < 2 ^ 53 * 2 ^ e :=
          mul_lt_mul_of_pos_right (by exact_mod_cast h.lt) hpos
      _ = 2 ^ (53 + e) := by rw [zpow_add₀ (by norm_num)]; norm_num
      _ ≤ 2 ^ (1024 : ℤ) := zpow_le_zpow_right₀ (by norm_num) (by omega)

end Canonical

end Handheld.Double
