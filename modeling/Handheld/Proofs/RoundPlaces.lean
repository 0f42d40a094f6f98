import Handheld.Proofs.Decimals
import Handheld.Proofs.Pointwise

/-!
# Rounding to decimal places

A number is rounded to `n` decimal places by multiplying it by `10 ^ n`, rounding the product to an
integer and dividing again. The product may overflow, and then the result is infinite although the
number is not. Below that limit the result is finite: it is the double nearest to the quotient, with
the sign of the number.
-/

namespace Handheld

open Float.Model (UnpackedFloat Format)

namespace Double

open Float.Model.UnpackedFloat (Sign)

private theorem Measures.signOf_eq {s : Sign} {v : ℚ} {u : UnpackedFloat} (h : Measures s v u) :
    signOf u = s := by
  cases h <;> rfl

private theorem Measures.isFinite {s : Sign} {v : ℚ} {x : Float} (h : Measures s v (parts x)) :
    x.isFinite = true := by
  rw [isFinite_eq_parts]
  generalize parts x = u at h ⊢
  cases h <;> rfl

/-- A shifted mantissa to which half a unit was added. -/
theorem floor_add_half {m k : ℕ} (hk : 0 < k) :
    ⌊(m : ℚ) * 2 ^ (-(k : ℤ)) + 1 / 2⌋ = ((m + 2 ^ (k - 1)) >>> k : ℕ) := by
  have hpower : (2 : ℚ) ^ k = 2 * 2 ^ (k - 1) := by rw [← pow_succ', Nat.sub_add_cancel hk]
  have hquotient : (m : ℚ) * 2 ^ (-(k : ℤ)) + 1 / 2 = (m + 2 ^ (k - 1) : ℕ) / (2 ^ k : ℕ) := by
    rw [zpow_neg, zpow_natCast]
    push_cast
    rw [hpower]
    field_simp
  rw [hquotient, Nat.shiftRight_eq_div_pow, Rat.floor_natCast_div_natCast, Int.natCast_ediv]

/-- Half a unit more does not make a shifted mantissa larger than it was. -/
theorem shiftRight_add_half_le {m k : ℕ} (hm : 0 < m) (hk : 0 < k) :
    (m + 2 ^ (k - 1)) >>> k ≤ m := by
  have hpower : 2 ^ k = 2 * 2 ^ (k - 1) := by rw [← pow_succ', Nat.sub_add_cancel hk]
  rw [Nat.shiftRight_eq_div_pow]
  apply Nat.div_le_of_le_mul
  rw [hpower]
  have : 0 < 2 ^ (k - 1) := by positivity
  nlinarith

/-- Negation turns the sign of a double and keeps its size. -/
private theorem Measures.neg {s : Sign} {v : ℚ} {x : Float} (h : Measures s v (parts x)) :
    Measures (-s) v (parts (-x)) := by
  rw [parts_neg]
  generalize parts x = u at h ⊢
  cases h with
  | zero => exact .zero
  | finite hm => exact .finite hm

/-- A natural number with a sign is exact up to fifty-three binary places. -/
private theorem measures_signed (s : Sign) {n : ℕ} (hn : n < 2 ^ 53) :
    Measures s n (parts (signed s n)) := by
  cases s with
  | positive => exact measures_ofNat hn
  | negative => exact (measures_ofNat hn).neg

/-- Rounding to an integer is exact, so it keeps doubles finite. -/
theorem measures_round {x : Float} {s : Sign} {v : ℚ} (h : Measures s v (parts x)) :
    Measures s ⌊v + 1 / 2⌋ (parts (round x)) := by
  have hparts : x.toModel.unpack = parts x := rfl
  have hx := h
  rw [round, integral, hparts]
  generalize hu : parts x = u at h ⊢
  cases h with
  | zero =>
    have hfloor : ⌊(0 : ℚ) + 1 / 2⌋ = 0 := by norm_num
    rw [hfloor, Int.cast_zero]
    exact hx
  | @finite m e hm =>
    dsimp only
    split_ifs with he
    · obtain ⟨k, rfl⟩ := Int.eq_ofNat_of_zero_le he
      have hvalue : (m : ℚ) * 2 ^ (k : ℤ) = (m * 2 ^ k : ℕ) := by
        rw [zpow_natCast]
        push_cast
        rfl
      have hfloor : ⌊(1 / 2 : ℚ)⌋ = 0 := by norm_num
      rw [hvalue] at hx ⊢
      rw [Int.floor_natCast_add, hfloor, add_zero, Int.cast_natCast]
      exact hx
    · obtain ⟨k, rfl⟩ := Int.exists_eq_neg_ofNat (not_le.mp he).le
      rw [neg_neg, Int.toNat_natCast, floor_add_half (by omega), Int.cast_natCast]
      have hle := shiftRight_add_half_le hm (k := k) (by omega)
      exact measures_signed s (hle.trans_lt (canonical_of_parts hu).1.lt)

private theorem round_of_infinity {x : Float} {s : Sign} (h : parts x = .infinity s) :
    round x = x := by
  have hparts : x.toModel.unpack = parts x := rfl
  rw [round, integral, hparts, h]

/-- An infinity divided by a finite double is infinite. -/
private theorem parts_infinity_div {x y : Float} {s t : Sign} {v : ℚ} (hx : parts x = .infinity s)
    (hy : Measures t v (parts y)) : parts (x / y) = .infinity (s / t) := by
  rw [parts_div, hx]
  generalize parts y = u at hy ⊢
  cases hy <;> exact stored_infinity _

end Double

namespace Builtin

open Double

/-- What a finite double becomes that is rounded to `n` decimal places. -/
inductive RoundsTo (n : ℕ) (x r : Float) : Prop
  /-- Where the product with `10 ^ n` is a double, the result is the quotient of the nearest
  integer. -/
  | finite (hlimit : size x * 10 ^ n < limit) (hfinite : r.isFinite = true)
      (hsize : size r = rounded (⌊rounded (size x * 10 ^ n) + 1 / 2⌋ / 10 ^ n))
      (hsign : isNegative r = isNegative x)
  /-- Where the product overflows, so does the result. -/
  | infinite (hlimit : limit ≤ size x * 10 ^ n) (hr : r = copySign infinity x)

/-- A finite double is multiplied by a power of ten, rounded and divided, each to the nearest
double; where the product overflows, the result is infinite. -/
theorem roundsTo_roundPlaces {n : ℕ} (hn : n ≤ 9) {x : Float} (hx : x.isFinite = true) :
    RoundsTo n x (roundPlaces n x) := by
  have hpower : 10 ^ n ≤ 10 ^ 9 := Nat.pow_le_pow_right (by norm_num) hn
  have hfactor : Measures .positive (10 ^ n : ℕ) (parts (Float.ofNat (Nat.pow 10 n))) :=
    measures_ofNat (hpower.trans_lt (by norm_num))
  rw [Nat.cast_pow, Nat.cast_ofNat] at hfactor
  obtain ⟨s, hs⟩ := measures_of_isFinite hx
  have hmul : s * .positive = s := by cases s <;> rfl
  have hdiv : s / .positive = s := by cases s <;> rfl
  have hproduct := nearest_mul hs hfactor
  rw [hmul] at hproduct
  unfold roundPlaces
  dsimp only
  by_cases hlimit : size x * 10 ^ n < limit
  · have hinteger := measures_round (hproduct.measures hlimit)
    have hquotient := nearest_div hinteger hfactor (by positivity)
    rw [hdiv] at hquotient
    have hbound : (⌊rounded (size x * 10 ^ n) + 1 / 2⌋ : ℚ) / 10 ^ n < limit :=
      (div_le_self hinteger.nonneg (one_le_pow₀ (by norm_num))).trans_lt hinteger.lt_limit
    have hresult := hquotient.measures hbound
    refine .finite hlimit hresult.isFinite hresult.size_eq (isNegative_eq_of_signOf ?_)
    rw [hresult.signOf_eq, hs.signOf_eq]
  · have hinfinite := hproduct.eq_infinity (not_lt.mp hlimit)
    rw [round_of_infinity hinfinite]
    refine .infinite (not_lt.mp hlimit) (parts_injective ?_)
    rw [parts_infinity_div hinfinite hfactor, parts_copySign_infinity, hs.signOf_eq, hdiv]

/-- The arguments behind the first ask for `n` places. -/
def Asks (n : ℕ) : List (Option Value) → Prop
  | [] => n = defaultPlaces
  | [some (.number z)] => n ≤ 9 ∧ z.equals (.ofNat n) = true
  | _ => False

/-- No more than nine places can be asked for. -/
theorem Asks.le {n : ℕ} {vs : List (Option Value)} (h : Asks n vs) : n ≤ 9 := by
  unfold Asks at h
  split at h
  · exact h.le
  · exact h.1
  · exact h.elim

/-- The digits as doubles, and negative zero with them. -/
theorem whole_of_beq {n : ℕ} (hn : n ≤ 9) {x : Float} (h : (x == Float.ofNat n) = true) :
    isIntegral x = true ∧ 0 ≤ x ∧ x ≤ 9 ∧ magnitude x = n := by
  have hdigits : ∀ n < 10, isIntegral (Float.ofNat n) = true ∧ 0 ≤ Float.ofNat n ∧
      Float.ofNat n ≤ 9 ∧ magnitude (Float.ofNat n) = n := by decide +kernel
  have hdigit := hdigits n (Nat.lt_succ_of_le hn)
  obtain ⟨-, -, rfl | ⟨rfl, hzero⟩ | ⟨rfl, hzero⟩⟩ := Float.beq_iff_ne_nan_and_eq.mp h
  · exact hdigit
  · have hpositive : ∀ n < 10, Float.ofNat n ≠ -0 := by decide +kernel
    exact absurd hzero (hpositive n (Nat.lt_succ_of_le hn))
  · rw [hzero] at hdigit
    have hn : n = 0 := hdigit.2.2.2.symm
    rw [hn]
    decide +kernel

/-- A number that is equal to a natural number up to nine asks for that many places. -/
private theorem places_of_equals {n : ℕ} (hn : n ≤ 9) {z : Number}
    (h : z.equals (.ofNat n) = true) : places z = .ok n := by
  obtain ⟨hre, him⟩ := Bool.and_eq_true_iff.mp h
  obtain ⟨hintegral, hnonneg, hle, hmagnitude⟩ := whole_of_beq hn hre
  have hreal : z.isReal = true := him
  rw [places, hmagnitude, if_pos]
  simp [hreal, hintegral, hnonneg, hle]

end Builtin

namespace Value

/-- All numbers of a numeric value have the property. -/
def All (p : Number → Prop) : Value → Prop
  | number z => p z
  | list zs => ∀ z ∈ zs, p z
  | string _ => False

/-- Values of the same kind and length, with related numbers at each place. -/
inductive Pairs (r : Number → Number → Prop) : Value → Value → Prop
  | number {a b : Number} (h : r a b) : Pairs r (number a) (number b)
  | list {as bs : List Number} (h : List.Forall₂ r as bs) : Pairs r (list as) (list bs)

private theorem All.isNumeric {p : Number → Prop} {v : Value} (h : v.All p) :
    v.isNumeric = true := by
  cases v with
  | number z => rfl
  | list zs => rfl
  | string s => exact h.elim

end Value

namespace Builtin

/-- What holds of each number of a value and its image holds of the value and its image, number by
number. -/
theorem exists_mapNumbers_partwise {p : Number → Prop} {r : Number → Number → Prop}
    {f : Float → Float} (h : ∀ z, p z → r z (z.mapParts f)) {v : Value} (hv : v.All p) :
    ∃ v', v.mapNumbers (partwise f) = .ok v' ∧ Value.Pairs r v v' := by
  cases v with
  | number z => exact ⟨_, rfl, .number (h z hv)⟩
  | list zs =>
    have hmap : zs.mapM (partwise f) = .ok (zs.map (Number.mapParts f)) := List.mapM_pure
    refine ⟨.list (zs.map (Number.mapParts f)), ?_, .list ?_⟩
    · rw [Value.mapNumbers, hmap]
      rfl
    · rw [List.forall₂_map_right_iff, List.forall₂_same]
      exact fun z hz => h z (hv z hz)
  | string s => exact hv.elim

private theorem mem_round :
    ("round", .function 1 2 [[.number, .list], [.number]] round) ∈ commands := by
  simp [commands, functions]

/-- Rounding with arguments that ask for `n` places rounds every part to `n` places. -/
private theorem round_of_asks {n : ℕ} {vs : List (Option Value)} (h : Asks n vs) (v : Value) :
    round (some v :: vs) = (v.mapNumbers (partwise (roundPlaces n))).map some := by
  unfold Asks at h
  split at h
  · rw [h, round]
    cases v.mapNumbers (partwise (roundPlaces defaultPlaces)) <;> rfl
  · have hplaces := places_of_equals h.1 h.2
    rw [round, hplaces]
    change (do return some (← v.mapNumbers (partwise (roundPlaces n)))) = _
    cases v.mapNumbers (partwise (roundPlaces n)) <;> rfl
  · exact h.elim

/-- Arguments that ask for a number of places pass the check. -/
private theorem check_round_of_asks {n : ℕ} {vs : List (Option Value)} (h : Asks n vs) {v : Value}
    (hv : v.isNumeric = true) :
    (Command.function 1 2 [[.number, .list], [.number]] round).check "round" (some v :: vs) =
      .ok () := by
  unfold Asks at h
  split at h
  · cases v with
    | number z => rfl
    | list zs => rfl
    | string s => cases hv
  · cases v with
    | number z => rfl
    | list zs => rfl
    | string s => cases hv
  · exact h.elim

/-- What the command computes once its arguments are checked. -/
theorem seen_run_round {n : ℕ} {vs : List (Option Value)} (h : Asks n vs) {v : Value}
    (hv : v.isNumeric = true) (w : World) :
    Outcome.seen (registry.run "round" (some v :: vs) w) =
      Ending.ofExcept (v.mapNumbers (partwise (roundPlaces n))) w.scene := by
  rw [seen_run_function mem_round (check_round_of_asks h hv), round_of_asks h]
  cases v.mapNumbers (partwise (roundPlaces n)) <;> rfl

/-- A value with finite parts is rounded to `n` decimal places, `n` being at most 9, or 9 if nothing
is asked for: the result has the kind and the length of the value. A part whose product with `10 ^
n` is still a double becomes the double nearest to the rounded product over `10 ^ n`, which is
finite. Another part becomes infinite. -/
theorem round_of_finite (w : World) {n : ℕ} {vs : List (Option Value)} (hplaces : Asks n vs)
    {v : Value} (hv : v.All fun z => z.re.isFinite = true ∧ z.im.isFinite = true) :
    ∃ v', Outcome.seen (registry.run "round" (some v :: vs) w) = .ok (some v') w.scene ∧
      v.Pairs (fun z r => RoundsTo n z.re r.re ∧ RoundsTo n z.im r.im) v' := by
  obtain ⟨v', hv', hpairs⟩ := exists_mapNumbers_partwise (f := roundPlaces n)
    (r := fun z r => RoundsTo n z.re r.re ∧ RoundsTo n z.im r.im)
    (fun z hz => ⟨roundsTo_roundPlaces hplaces.le hz.1, roundsTo_roundPlaces hplaces.le hz.2⟩) hv
  refine ⟨v', ?_, hpairs⟩
  rw [seen_run_round hplaces hv.isNumeric, hv']
  rfl

/-- Of two parts rounded to two places one overflows. -/
theorem round_of_finite_list :
    (Asks 2 [some (.number (.ofNat 2))] ∧
      (Value.list [⟨-2.345, 1e307⟩]).All fun z => z.re.isFinite = true ∧ z.im.isFinite = true) ∧
    ∃ v', Outcome.seen (registry.run "round"
        [some (.list [⟨-2.345, 1e307⟩]), some (.number (.ofNat 2))] (World.new (.stream "") .trace)) =
          .ok (some v') (World.new (.stream "") .trace).scene ∧
      (Value.list [⟨-2.345, 1e307⟩]).Pairs
        (fun z r => RoundsTo 2 z.re r.re ∧ RoundsTo 2 z.im r.im) v' := by
  have hplaces : Asks 2 [some (.number (.ofNat 2))] := ⟨by decide, by decide +kernel⟩
  have hfinite : (Value.list [⟨-2.345, 1e307⟩]).All
      fun z => z.re.isFinite = true ∧ z.im.isFinite = true := by
    intro z hz
    rw [List.mem_singleton.mp hz]
    decide +kernel
  exact ⟨⟨hplaces, hfinite⟩, round_of_finite _ hplaces hfinite⟩

/-- Rounding may make a finite number infinite. -/
theorem round_of_finite_overflow :
    ¬ ∀ (w : World) (n : ℕ) (vs : List (Option Value)) (v : Value), Asks n vs →
      (v.All fun z => z.re.isFinite = true ∧ z.im.isFinite = true) →
      ∃ v', Outcome.seen (registry.run "round" (some v :: vs) w) = .ok (some v') w.scene ∧
        v'.All fun z => z.re.isFinite = true ∧ z.im.isFinite = true := by
  intro h
  have hplaces : Asks 9 [] := rfl
  obtain ⟨v', hv', hfinite⟩ := h (World.new (.stream "") .trace) 9 [] (.number (.ofReal 1e300)) rfl
    ⟨by decide +kernel, by decide +kernel⟩
  rw [seen_run_round hplaces rfl] at hv'
  cases hv'
  exact absurd hfinite.1 (by decide +kernel)

end Builtin

end Handheld
