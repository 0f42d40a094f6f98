import Handheld.Proofs.Denotation
import Handheld.Proofs.SignificantDigits

/-!
# The text of a decimal is a numeral

A decimal is written in one of four layouts: with an exponent, behind a zero and a point, padded
with zeros, or with a point among its digits. Each layout is a numeral, and all of them are worth
the same number. So the text of a positive double is read as a number if what it shows is below the
end of the doubles, and is too large otherwise.
-/

namespace Handheld

open Double (parts Measures Nearest rounded limit)

theorem natOfDigits_eq (ds : List Char) : natOfDigits ds = Nat.ofDigitChars 10 ds 0 := rfl

/-- Zeros behind digits multiply by a power of ten. -/
theorem natOfDigits_append_zeros (ds : List Char) (k : ℕ) :
    natOfDigits (ds ++ List.replicate k '0') = natOfDigits ds * 10 ^ k := by
  rw [natOfDigits_eq, Nat.ofDigitChars_append, Nat.ofDigitChars_replicate_zero, mul_comm]
  rfl

/-- Zeros before digits change nothing. -/
theorem natOfDigits_zeros_append (k : ℕ) (ds : List Char) :
    natOfDigits (List.replicate k '0' ++ ds) = natOfDigits ds := by
  rw [natOfDigits_eq, Nat.ofDigitChars_append, Nat.ofDigitChars_replicate_zero, Nat.mul_zero]
  rfl

namespace Scientific

/-- Only zeros at the end are trimmed off. -/
private theorem exists_toDigits_eq (d : ℕ) :
    ∃ k, Nat.toDigits 10 d = trimmedDigits d ++ List.replicate k '0' := by
  refine ⟨((Nat.toDigits 10 d).reverse.takeWhile (· == '0')).length, ?_⟩
  have hzeros : (Nat.toDigits 10 d).reverse.takeWhile (· == '0') =
      List.replicate ((Nat.toDigits 10 d).reverse.takeWhile (· == '0')).length '0' :=
    List.eq_replicate_of_mem fun c hc => by simpa using List.mem_takeWhile_imp hc
  rw [trimmedDigits, ← List.reverse_replicate, ← hzeros, ← List.reverse_append,
    List.takeWhile_append_dropWhile, List.reverse_reverse]

/-- The digits of a decimal with `n` of them. -/
structure DigitsOf (n d : ℕ) (ds : List Char) : Prop where
  digits : ∀ c ∈ ds, Name.isDigit c = true
  ne_nil : ds ≠ []
  length : ds.length ≤ n
  value : natOfDigits ds * 10 ^ (n - ds.length) = d

/-- The trimmed digits of a number of `n` digits stand for it. -/
theorem digitsOf_trimmedDigits {n d : ℕ} (hn : 0 < n) (hlow : 10 ^ (n - 1) ≤ d) (hlt : d < 10 ^ n) :
    DigitsOf n d (trimmedDigits d) := by
  obtain ⟨k, hk⟩ := exists_toDigits_eq d
  have hpos : 0 < d := (by positivity : 0 < 10 ^ (n - 1)).trans_le hlow
  have hcount : (Nat.toDigits 10 d).length = n := by
    have hupper := (Nat.length_toDigits_le_iff (b := 10) (by norm_num) hn).mpr hlt
    have hlower := (lt_digitCount_iff (n := d) (k := n - 1)).mpr hlow
    rw [digitCount, if_neg hpos.ne'] at hlower
    omega
  have hlength : (trimmedDigits d).length + k = n := by
    rw [← hcount, hk, List.length_append, List.length_replicate]
  have hvalue : natOfDigits (trimmedDigits d) * 10 ^ k = d := by
    rw [← natOfDigits_append_zeros, ← hk, natOfDigits_eq, Nat.ofDigitChars_ten_toDigits]
  refine ⟨fun c hc => ?_, ?_, by omega, ?_⟩
  · apply Nat.isDigit_of_mem_toDigits (b := 10) (n := d) (by norm_num) le_rfl
    rw [hk]
    exact List.mem_append_left _ hc
  · intro hnil
    rw [hnil] at hvalue
    change 0 * 10 ^ k = d at hvalue
    omega
  · rwa [show n - (trimmedDigits d).length = k by omega]

end Scientific

namespace Numeral

/-- The numeral stands for the double nearest to `v`, if there is one. -/
def Worth (n : Numeral) (v : ℚ) : Prop :=
  ∃ x, Nearest .positive v (parts x) ∧ n.value? = if x.isInf then none else some x

/-- A numeral of a number below the limit has a value, which is the nearest double. -/
theorem Worth.exists_value {n : Numeral} {v : ℚ} (h : n.Worth v) (hv : v < limit) :
    ∃ x, n.value? = some x ∧ Measures .positive (rounded v) (parts x) := by
  obtain ⟨x, hx, hvalue⟩ := h
  have hmeasures := hx.measures hv
  have hinf : x.isInf = false := by
    rw [Double.isInf_eq_parts]
    generalize parts x = u, rounded v = r at hmeasures
    cases hmeasures <;> rfl
  rw [hinf] at hvalue
  exact ⟨x, hvalue, hmeasures⟩

/-- A numeral of a number from the limit on has no value. -/
theorem Worth.value?_eq_none {n : Numeral} {v : ℚ} (h : n.Worth v) (hv : limit ≤ v) :
    n.value? = none := by
  obtain ⟨x, hx, hvalue⟩ := h
  have hinf : x.isInf = true := by
    rw [Double.isInf_eq_parts, hx.eq_infinity hv]
    rfl
  rwa [hinf] at hvalue

/-- Digits before and after a point; nothing after it leaves the point out. -/
def withPoint (whole fraction : List Char) : List Char :=
  if fraction = [] then whole else whole ++ '.' :: fraction

section Point

variable {whole fraction : List Char}

private theorem ne_point_of_isDigit {c : Char} (hc : Name.isDigit c = true) :
    (c != '.') = true := by
  rw [bne_iff_ne]
  rintro rfl
  cases hc

/-- Digits around a point are a mantissa. -/
theorem mantissa_withPoint (hwhole : ∀ c ∈ whole, Name.isDigit c = true)
    (hfraction : ∀ c ∈ fraction, Name.isDigit c = true) :
    Mantissa false (withPoint whole fraction) := by
  have hcount {ds : List Char} (hds : ∀ c ∈ ds, Name.isDigit c = true) : ds.count '.' = 0 := by
    apply List.count_eq_zero.mpr
    intro hmem
    cases hds '.' hmem
  unfold withPoint
  split_ifs
  · exact ⟨fun c hc => .inl (hwhole c hc), by rw [hcount hwhole]; exact Nat.zero_le _⟩
  · refine ⟨fun c hc => ?_, ?_⟩
    · rcases List.mem_append.mp hc with hc | hc
      · exact .inl (hwhole c hc)
      · rcases List.mem_cons.mp hc with rfl | hc
        · exact .inr rfl
        · exact .inl (hfraction c hc)
    · rw [List.count_append, List.count_cons_self, hcount hwhole, hcount hfraction]
      exact le_rfl

/-- The digits of a mantissa are those before and after its point. -/
private theorem filter_withPoint (hwhole : ∀ c ∈ whole, Name.isDigit c = true)
    (hfraction : ∀ c ∈ fraction, Name.isDigit c = true) :
    (withPoint whole fraction).filter (· != '.') = whole ++ fraction := by
  have hfilter {ds : List Char} (hds : ∀ c ∈ ds, Name.isDigit c = true) :
      ds.filter (· != '.') = ds :=
    List.filter_eq_self.mpr fun c hc => ne_point_of_isDigit (hds c hc)
  unfold withPoint
  split_ifs with hnil
  · rw [hfilter hwhole, hnil, List.append_nil]
  · rw [List.filter_append, List.filter_cons_of_neg (by decide), hfilter hwhole, hfilter hfraction]

/-- There are as many places as digits after the point. -/
theorem places_withPoint (hwhole : ∀ c ∈ whole, Name.isDigit c = true) :
    ((withPoint whole fraction).dropWhile (· != '.')).length - 1 = fraction.length := by
  have hall : ∀ c ∈ whole, (c != '.') = true := fun c hc => ne_point_of_isDigit (hwhole c hc)
  unfold withPoint
  split_ifs with hnil
  · rw [List.dropWhile_eq_nil_iff.mpr hall, hnil]
    rfl
  · rw [List.dropWhile_append_of_pos hall]
    rfl

/-- A numeral with some digits before and after its point. -/
theorem worth_withPoint (hwhole : ∀ c ∈ whole, Name.isDigit c = true)
    (hfraction : ∀ c ∈ fraction, Name.isDigit c = true) (e : Option (Option Char × List Char)) :
    Worth ⟨withPoint whole fraction, e⟩
      (natOfDigits (whole ++ fraction) *
        10 ^ (writtenExponent ⟨withPoint whole fraction, e⟩ - fraction.length)) := by
  refine ⟨_, nearest_nearestDouble _ _, ?_⟩
  unfold value?
  dsimp only
  rw [filter_withPoint hwhole hfraction, places_withPoint hwhole]

end Point

private theorem le_foldl_digits (ds : List Char) (n : ℕ) :
    n ≤ ds.foldl (fun n c => 10 * n + (c.toNat - '0'.toNat)) n := by
  induction ds generalizing n with
  | nil => exact le_rfl
  | cons c ds ih => exact (by omega : n ≤ 10 * n + (c.toNat - '0'.toNat)).trans (ih _)

/-- Nothing is passed over in a small exponent. -/
theorem exponentSize_eq {ds : List Char} (h : natOfDigits ds < 10000) :
    exponentSize ds = natOfDigits ds := by
  unfold exponentSize
  unfold natOfDigits at h ⊢
  generalize 0 = n at h ⊢
  induction ds generalizing n with
  | nil => rfl
  | cons c ds ih =>
    rw [List.foldl_cons] at h
    rw [List.foldl_cons, List.foldl_cons]
    have hn : n < 10000 := by
      have hle := le_foldl_digits ds (10 * n + (c.toNat - '0'.toNat))
      omega
    rw [if_pos hn]
    exact ih _ h

/-- The exponent that is written after the mark. -/
def exponentOf (e : ℤ) : Option Char × List Char :=
  (if e < 0 then some '-' else none, Nat.toDigits 10 e.natAbs)

/-- An exponent is written behind its mark like an integer. -/
theorem exponentChars_exponentOf (e : ℤ) :
    exponentChars (some (exponentOf e)) = 'ᴇ' :: (Int.repr e).toList := by
  cases e with
  | ofNat n =>
    have hnonneg : ¬ Int.ofNat n < 0 := Int.not_lt.mpr (Int.natCast_nonneg n)
    rw [exponentOf, if_neg hnonneg]
    change 'ᴇ' :: Nat.toDigits 10 n = 'ᴇ' :: (Nat.repr n).toList
    rw [Nat.toList_repr]
  | negSucc n =>
    rw [exponentOf, if_pos (by omega)]
    change 'ᴇ' :: '-' :: Nat.toDigits 10 (n + 1) = 'ᴇ' :: ("-" ++ Nat.repr (n + 1)).toList
    rw [String.toList_append, Nat.toList_repr]
    rfl

/-- What is written behind the mark is an exponent. -/
theorem exponent_exponentOf (e : ℤ) : Exponent (exponentOf e) := by
  refine ⟨fun c hc => ?_, fun c hc => Nat.isDigit_of_mem_toDigits (by norm_num) le_rfl hc⟩
  unfold exponentOf at hc
  split_ifs at hc
  · cases hc
    rfl
  · cases hc

/-- An exponent of up to four digits is read as it was written. -/
theorem writtenExponent_exponentOf {e : ℤ} (he : e.natAbs < 10000) (cs : List Char) :
    writtenExponent ⟨cs, some (exponentOf e)⟩ = e := by
  have hvalue : natOfDigits (Nat.toDigits 10 e.natAbs) = e.natAbs := Nat.ofDigitChars_ten_toDigits
  have hsize : exponentSize (Nat.toDigits 10 e.natAbs) = e.natAbs := by
    rw [exponentSize_eq (by rwa [hvalue]), hvalue]
  unfold exponentOf
  split_ifs with hneg
  · change -(exponentSize (Nat.toDigits 10 e.natAbs) : ℤ) = e
    rw [hsize]
    omega
  · change (exponentSize (Nat.toDigits 10 e.natAbs) : ℤ) = e
    rw [hsize]
    omega

end Numeral

namespace Number

open Numeral (withPoint exponentOf exponentChars writtenExponent)

/-- The text of a decimal as digits before and after a point, and an exponent. -/
structure Layout (s : Scientific) (whole fraction : List Char)
    (e : Option (Option Char × List Char)) : Prop where
  chars : withPoint whole fraction ++ exponentChars e = decimalText s
  whole_digits : ∀ c ∈ whole, Name.isDigit c = true
  fraction_digits : ∀ c ∈ fraction, Name.isDigit c = true
  ne_nil : whole ≠ []
  exponent : ∀ x ∈ e, Numeral.Exponent x ∧ x.2 ≠ []
  value : (natOfDigits (whole ++ fraction) : ℚ) *
      10 ^ (writtenExponent ⟨withPoint whole fraction, e⟩ - fraction.length) =
    natOfDigits s.digits * 10 ^ (s.exponent + 1 - s.digits.length)

section Layouts

variable {s : Scientific} (hdigits : ∀ c ∈ s.digits, Name.isDigit c = true) (hne : s.digits ≠ [])

include hdigits hne

/-- A very large or very small decimal has one digit before the point and an exponent. -/
private theorem layout_exponent (he : s.exponent < leastPositional ∨ (shownDigits : ℤ) ≤ s.exponent)
    (hsize : s.exponent.natAbs < 10000) :
    Layout s (s.digits.take 1) (s.digits.drop 1) (some (exponentOf s.exponent)) := by
  have hlength : 0 < s.digits.length := List.length_pos_iff.mpr hne
  refine ⟨?_, fun c hc => hdigits c (List.mem_of_mem_take hc),
    fun c hc => hdigits c (List.mem_of_mem_drop hc), ?_, ?_, ?_⟩
  · rw [decimalText, if_pos he, Numeral.exponentChars_exponentOf]
    congr 1
    cases hs : s.digits with
    | nil => exact absurd hs hne
    | cons d ds => cases ds <;> rfl
  · intro hnil
    rcases List.take_eq_nil_iff.mp hnil with hzero | hnil
    · cases hzero
    · exact hne hnil
  · rintro x ⟨⟩
    exact ⟨Numeral.exponent_exponentOf _, Nat.toDigits_ne_nil⟩
  · rw [List.take_append_drop, Numeral.writtenExponent_exponentOf hsize, List.length_drop,
      Nat.cast_sub hlength]
    congr 2
    push_cast
    ring

/-- A decimal below one has a zero before the point and the missing zeros behind it. -/
private theorem layout_small
    (hleast : ¬ (s.exponent < leastPositional ∨ (shownDigits : ℤ) ≤ s.exponent))
    (hsmall : s.exponent < 0) :
    Layout s ['0'] (List.replicate (-s.exponent - 1).toNat '0' ++ s.digits) none := by
  refine ⟨?_, ?_, ?_, by simp, nofun, ?_⟩
  · rw [decimalText, if_neg hleast, if_pos hsmall, withPoint, if_neg (by simp [hne])]
    exact List.append_nil _
  · rintro c hc
    rw [List.mem_singleton.mp hc]
    rfl
  · intro c hc
    rcases List.mem_append.mp hc with hc | hc
    · rw [List.eq_of_mem_replicate hc]
      rfl
    · exact hdigits c hc
  · have hzeros : natOfDigits (['0'] ++ (List.replicate (-s.exponent - 1).toNat '0' ++ s.digits)) =
        natOfDigits s.digits := by
      rw [← natOfDigits_zeros_append ((-s.exponent - 1).toNat + 1) s.digits, List.replicate_succ]
      rfl
    rw [hzeros, List.length_append, List.length_replicate]
    change _ * 10 ^ ((0 : ℤ) - _) = _
    congr 2
    push_cast
    omega

/-- A decimal with few digits is padded with zeros and has no point. -/
private theorem layout_padded
    (hleast : ¬ (s.exponent < leastPositional ∨ (shownDigits : ℤ) ≤ s.exponent))
    (hsmall : ¬ s.exponent < 0) (hlength : s.digits.length ≤ s.exponent.toNat + 1) :
    Layout s (s.digits ++ List.replicate (s.exponent.toNat + 1 - s.digits.length) '0') [] none := by
  refine ⟨?_, ?_, nofun, by simp [hne], nofun, ?_⟩
  · rw [decimalText, if_neg hleast, if_neg hsmall]
    dsimp only
    rw [if_pos hlength, withPoint, if_pos rfl]
    exact List.append_nil _
  · intro c hc
    rcases List.mem_append.mp hc with hc | hc
    · exact hdigits c hc
    · rw [List.eq_of_mem_replicate hc]
      rfl
  · rw [List.append_nil, natOfDigits_append_zeros]
    change _ * 10 ^ ((0 : ℤ) - ((0 : ℕ) : ℤ)) = _
    rw [Nat.cast_zero, sub_zero, zpow_zero, mul_one, Nat.cast_mul, Nat.cast_pow, Nat.cast_ofNat,
      ← zpow_natCast]
    congr 2
    omega

/-- A decimal with many digits has the point among them. -/
private theorem layout_pointed
    (hleast : ¬ (s.exponent < leastPositional ∨ (shownDigits : ℤ) ≤ s.exponent))
    (hsmall : ¬ s.exponent < 0) (hlength : ¬ s.digits.length ≤ s.exponent.toNat + 1) :
    Layout s (s.digits.take (s.exponent.toNat + 1)) (s.digits.drop (s.exponent.toNat + 1)) none := by
  refine ⟨?_, fun c hc => hdigits c (List.mem_of_mem_take hc),
    fun c hc => hdigits c (List.mem_of_mem_drop hc), ?_, nofun, ?_⟩
  · rw [decimalText, if_neg hleast, if_neg hsmall]
    dsimp only
    rw [if_neg hlength, withPoint, if_neg (by rw [List.drop_eq_nil_iff]; exact hlength)]
    exact List.append_nil _
  · intro hnil
    rcases List.take_eq_nil_iff.mp hnil with hzero | hnil
    · cases hzero
    · exact hne hnil
  · rw [List.take_append_drop, List.length_drop]
    change _ * 10 ^ ((0 : ℤ) - _) = _
    congr 2
    omega

/-- Every decimal has a layout. -/
theorem exists_layout (hsize : s.exponent.natAbs < 10000) :
    ∃ whole fraction e, Layout s whole fraction e := by
  by_cases hexponent : s.exponent < leastPositional ∨ (shownDigits : ℤ) ≤ s.exponent
  · exact ⟨_, _, _, layout_exponent hdigits hne hexponent hsize⟩
  by_cases hsmall : s.exponent < 0
  · exact ⟨_, _, _, layout_small hdigits hne hexponent hsmall⟩
  by_cases hlength : s.digits.length ≤ s.exponent.toNat + 1
  · exact ⟨_, _, _, layout_padded hdigits hne hexponent hsmall hlength⟩
  · exact ⟨_, _, _, layout_pointed hdigits hne hexponent hsmall hlength⟩

omit hdigits hne in
/-- A layout is a proper numeral. -/
theorem Layout.proper {whole fraction : List Char} {e : Option (Option Char × List Char)}
    (h : Layout s whole fraction e) : Numeral.Proper ⟨withPoint whole fraction, e⟩ := by
  obtain ⟨c, hc⟩ := List.exists_mem_of_ne_nil _ h.ne_nil
  refine ⟨⟨Numeral.mantissa_withPoint h.whole_digits h.fraction_digits, fun x hx => (h.exponent x hx).1⟩,
    ⟨c, ?_, h.whole_digits c hc⟩, ?_⟩
  · change c ∈ withPoint whole fraction
    unfold withPoint
    split_ifs
    · exact hc
    · exact List.mem_append_left _ hc
  · cases e with
    | none => rfl
    | some x =>
      have hne := (h.exponent x rfl).2
      change (!x.2.isEmpty) = true
      rw [Bool.not_eq_true', List.isEmpty_eq_false_iff]
      exact hne

/-- The text of a decimal is a numeral that is worth the decimal. -/
theorem exists_numeral (hsize : s.exponent.natAbs < 10000) :
    ∃ n : Numeral, n.Proper ∧ n.chars = decimalText s ∧
      n.Worth (natOfDigits s.digits * 10 ^ (s.exponent + 1 - s.digits.length)) := by
  obtain ⟨whole, fraction, e, h⟩ := exists_layout hdigits hne hsize
  refine ⟨⟨withPoint whole fraction, e⟩, h.proper, ?_, ?_⟩
  · rw [Numeral.chars_eq]
    exact h.chars
  · rw [← h.value]
    exact Numeral.worth_withPoint h.whole_digits h.fraction_digits e

end Layouts

/-- The text of a positive double is a numeral. It stands for a double that shows the same text, but
at the top of the range for none. -/
theorem exists_numeral_realText {x : Float} {v : ℚ} (hx : Measures .positive v (parts x))
    (hv : 0 < v) :
    ∃ n : Numeral, n.Proper ∧ n.chars = realText x ∧
      (v ≤ Scientific.readLimit → ∃ y w, n.value? = some y ∧ Measures .positive w (parts y) ∧
        0 < w ∧ realText y = realText x) ∧
      (Scientific.readLimit < v → n.value? = none ∧ n.chars = "1.797693135ᴇ308".toList) := by
  obtain ⟨d, e, hshows⟩ := Scientific.exists_shows (n := 10) (by norm_num) hv
  have hdigits := Scientific.digitsOf_trimmedDigits (by norm_num) (hshows.digits (by norm_num)).1
    (hshows.digits (by norm_num)).2
  have htext := realText_of_shows hx hv hshows
  obtain ⟨n, hproper, hchars, hworth⟩ := exists_numeral (s := ⟨Scientific.trimmedDigits d, e⟩)
    hdigits.digits hdigits.ne_nil (hshows.natAbs_lt hx)
  have hvalue : (natOfDigits (Scientific.trimmedDigits d) : ℚ) *
      10 ^ (e + 1 - (Scientific.trimmedDigits d).length) = d * 10 ^ (e - 9) := by
    have hlength := hdigits.length
    have hd : (d : ℚ) = natOfDigits (Scientific.trimmedDigits d) *
        10 ^ (10 - (Scientific.trimmedDigits d).length) := by exact_mod_cast hdigits.value.symm
    rw [hd, mul_assoc, ← zpow_natCast, ← zpow_add₀ (by norm_num)]
    congr 2
    omega
  rw [hvalue] at hworth
  refine ⟨n, hproper, hchars.trans htext.symm, fun hle => ?_, fun hlt => ?_⟩
  · obtain ⟨y, hy, hmeasures⟩ := hworth.exists_value (hshows.lt_limit hle)
    have hshows' : Scientific.Shows 10 (rounded (d * 10 ^ (e - 9))) d e := hshows.rounded_of_measures hx
    exact ⟨y, _, hy, hmeasures, hshows'.pos, by rw [realText_of_shows hmeasures hshows'.pos hshows', htext]⟩
  · obtain ⟨rfl, rfl⟩ := hshows.eq_of_readLimit_lt hlt hx.lt_limit
    refine ⟨hworth.value?_eq_none Scientific.limit_le_shown, ?_⟩
    rw [hchars]
    decide +kernel

end Number

end Handheld
