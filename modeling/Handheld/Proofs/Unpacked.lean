import Handheld.Double.Basic
import Handheld.Proofs.Rounding
import Mathlib

/-!
# Doubles and their parts

A double is packed into bits, and every operation works on its parts: the class, the sign, the
mantissa and the exponent. This module says which parts a double can have. Finite parts that fit
come back from the bits, and those that are too large have become an infinity.
-/

namespace Handheld.Double

open Float.Model (UnpackedFloat Format)
open Float.Model.UnpackedFloat (Sign pack unpack packComponents packedInfinity)

/-- The parts of a double. -/
def parts (x : Float) : UnpackedFloat := x.toModel.unpack

/-- A double is determined by its parts. -/
theorem parts_injective : Function.Injective parts := by
  rintro ⟨⟨x, hx⟩⟩ ⟨⟨y, hy⟩⟩ h
  have hbits := (UnpackedFloat.unpack_inj_of_valid hx hy).mp h
  have hword : x = y := UInt64.toBitVec_inj.mp hbits
  subst hword
  rfl

/-- A fraction field with the leading one in front of it. -/
theorem toNat_leadingOne_append (b : BitVec 52) : (1#1 ++ b).toNat = 2 ^ 52 + b.toNat := by
  rw [BitVec.toNat_append, ← Nat.shiftLeft_add_eq_or_of_lt b.isLt]
  simp

/-- The parts of a double are canonical and below the overflow. -/
theorem canonical_of_parts {x : Float} {s : Sign} {m : ℕ} {e : ℤ} {hm : 0 < m}
    (h : parts x = .finite s m e hm) : Canonical m e ∧ e ≤ 971 := by
  have hbias : Format.binary64.exponentBias = 1023 := rfl
  unfold parts Float.Model.unpack UnpackedFloat.unpack at h
  dsimp only at h
  rw [hbias] at h
  split_ifs at h with hmax hinf hmin hzero
  · simp only [UnpackedFloat.finite.injEq, hmin] at h
    obtain ⟨-, rfl, rfl⟩ := h
    exact ⟨⟨(BitVec.isLt _).trans (by norm_num), by norm_num, .inr (by norm_num)⟩, by norm_num⟩
  · simp only [UnpackedFloat.finite.injEq, toNat_leadingOne_append] at h
    obtain ⟨-, rfl, rfl⟩ := h
    have hfraction := BitVec.isLt
      (@UnpackedFloat.unpackMantissa Format.binary64 x.toModel.toBits.toBitVec)
    generalize @UnpackedFloat.unpackExponent Format.binary64 x.toModel.toBits.toBitVec = f
      at hmax hmin ⊢
    have hlast : f.toNat ≠ 2047 := fun hf => hmax (BitVec.eq_of_toNat_eq hf)
    have hfirst : f.toNat ≠ 0 := fun hf => hmin (BitVec.eq_of_toNat_eq hf)
    have hbound : f.toNat < 2048 := f.isLt
    refine ⟨⟨?_, ?_, .inl ?_⟩, ?_⟩ <;> push_cast <;> omega

/-- What is left of parts once they are packed. -/
def stored (u : UnpackedFloat) : UnpackedFloat := (Float.Model.pack u).unpack

/-- The parts of a double are as they were packed. -/
theorem stored_parts (x : Float) : stored (parts x) = parts x := by
  have hbits := UnpackedFloat.pack_unpack_of_valid x.toModel.valid
  unfold stored parts Float.Model.pack Float.Model.unpack
  dsimp only
  rw [hbits]

/-- Zeros are packed with their sign. -/
theorem stored_zero (s : Sign) : stored (.zero s) = .zero s :=
  UnpackedFloat.unpack_packedZero

private theorem stored_notANumber : stored .notANumber = .notANumber :=
  @UnpackedFloat.unpack_packedNaN Format.binary64

private theorem unpack_packedInfinity (s : Sign) :
    unpack Format.binary64 (packedInfinity Format.binary64 s) = .infinity s := by
  simp [unpack, packedInfinity]

/-- Infinities are packed with their sign. -/
theorem stored_infinity (s : Sign) : stored (.infinity s) = .infinity s :=
  unpack_packedInfinity s

/-- Beyond the largest exponent nothing but the sign is left. -/
theorem stored_finite_of_lt {s : Sign} {m : ℕ} {e : ℤ} {hm : 0 < m} (he : 971 < e) :
    stored (.finite s m e hm) = .infinity s := by
  have hbias : Format.binary64.exponentBias = 1023 := rfl
  have hover : 2 ^ 11 ≤ (e + 1023 + 52).toNat + 1 := by omega
  unfold stored Float.Model.pack Float.Model.unpack UnpackedFloat.pack
  dsimp only
  rw [hbias, if_pos (by simpa using hover)]
  exact unpack_packedInfinity s

/-- A number without a leading one has the exponent field zero. -/
theorem unpack_subnormal (s : Sign) {m : ℕ} (hm : 0 < m) (hlt : m < 2 ^ 52) :
    unpack Format.binary64 (packComponents Format.binary64 s 0#11 (BitVec.ofNat 52 m)) =
      .finite s m (-1074) hm := by
  have hm' : (BitVec.ofNat 52 m).toNat = m := Nat.mod_eq_of_lt hlt
  have hne : BitVec.ofNat 52 m ≠ 0#52 := by
    intro h
    rw [h] at hm'
    exact hm.ne hm'
  unfold UnpackedFloat.unpack
  simp only [UnpackedFloat.unpackMantissa_packComponents,
    UnpackedFloat.unpackExponent_packComponents, UnpackedFloat.unpackSign_packComponents,
    Sign.ofBitVec_toBitVec, hm', hne]
  rfl

/-- The leading one is left out of the fraction field and put back. -/
theorem unpack_normal (s : Sign) {m f : ℕ} (hm : 2 ^ 52 ≤ m) (hlt : m < 2 ^ 53) (hf : 0 < f)
    (hf' : f < 2047) :
    unpack Format.binary64
        (packComponents Format.binary64 s (BitVec.ofNat 11 f) (BitVec.ofNat 52 m)) =
      .finite s m (f - 1075) (by omega) := by
  have hfield : (BitVec.ofNat 11 f).toNat = f := Nat.mod_eq_of_lt (by omega)
  have hlast : BitVec.ofNat 11 f ≠ -1#11 := by
    intro h
    rw [h] at hfield
    exact hf'.ne hfield.symm
  have hfirst : BitVec.ofNat 11 f ≠ 0#11 := by
    intro h
    rw [h] at hfield
    exact hf.ne hfield
  have hmantissa : (1#1 ++ BitVec.ofNat 52 m).toNat = m := by
    rw [toNat_leadingOne_append, BitVec.toNat_ofNat]
    omega
  unfold UnpackedFloat.unpack
  simp only [UnpackedFloat.unpackMantissa_packComponents,
    UnpackedFloat.unpackExponent_packComponents, UnpackedFloat.unpackSign_packComponents,
    Sign.ofBitVec_toBitVec, hlast, hfirst, hmantissa, hfield]
  rfl

/-- A mantissa with its exponent is packed as it is, up to the largest exponent. Below the least
normal double the exponent field is zero and the mantissa has no leading one. -/
theorem stored_finite {s : Sign} {m : ℕ} {e : ℤ} {hm : 0 < m} (h : Canonical m e) (he : e ≤ 971) :
    stored (.finite s m e hm) = .finite s m e hm := by
  have hbias : Format.binary64.exponentBias = 1023 := rfl
  have hbits : Format.binary64.mantissaBits = 53 := rfl
  have hleast := h.least
  have hfield : ¬ 2 ^ 11 ≤ (e + 1023 + 52).toNat + 1 := by omega
  unfold stored Float.Model.pack Float.Model.unpack UnpackedFloat.pack
  dsimp only
  rw [hbias, hbits, if_neg (by simpa using hfield)]
  by_cases hfull : 2 ^ 52 ≤ m
  · have hlog : m.log2 = 52 := (Nat.log2_eq_iff hm.ne').mpr ⟨hfull, h.lt⟩
    rw [if_pos (by rw [hlog])]
    refine (unpack_normal s hfull h.lt ?_ ?_).trans ?_
    · push_cast
      omega
    · push_cast
      omega
    · congr 1
      push_cast
      omega
  · have hlog : m.log2 < 52 := (Nat.log2_lt hm.ne').mpr (not_le.mp hfull)
    rw [if_neg (by omega)]
    obtain rfl := h.full.resolve_left hfull
    exact unpack_subnormal s hm (not_le.mp hfull)

/-- A sum of doubles is the packed sum of their parts. -/
theorem parts_add (x y : Float) :
    parts (x + y) = stored (UnpackedFloat.add Format.binary64 (parts x) (parts y)) := rfl

/-- A difference of doubles is the packed difference of their parts. -/
theorem parts_sub (x y : Float) :
    parts (x - y) = stored (UnpackedFloat.sub Format.binary64 (parts x) (parts y)) := rfl

/-- A product of doubles is the packed product of their parts. -/
theorem parts_mul (x y : Float) :
    parts (x * y) = stored (UnpackedFloat.mul Format.binary64 (parts x) (parts y)) := rfl

/-- A quotient of doubles is the packed quotient of their parts. -/
theorem parts_div (x y : Float) :
    parts (x / y) = stored (UnpackedFloat.div Format.binary64 (parts x) (parts y)) := rfl

/-- The square root of a double is the packed square root of its parts. -/
theorem parts_sqrt (x : Float) :
    parts x.sqrt = stored (UnpackedFloat.sqrt Format.binary64 (parts x)) := rfl

/-- Doubles are ordered like their parts. -/
theorem lt_iff_parts {x y : Float} : x < y ↔ (parts x).lt (parts y) = true := decide_eq_true_iff

theorem le_iff_parts {x y : Float} : x ≤ y ↔ (parts x).le (parts y) = true := decide_eq_true_iff

/-- Doubles are equal where their parts are. -/
theorem beq_eq_parts (x y : Float) : (x == y) = (parts x).beq (parts y) := rfl

/-- A double is finite where its parts are. -/
theorem isFinite_eq_parts (x : Float) : x.isFinite = (parts x).isFinite := rfl

theorem isInf_eq_parts (x : Float) : x.isInf = (parts x).isInf := rfl

theorem isNaN_eq_parts (x : Float) : x.isNaN = (parts x).isNaN := rfl

/-- Negation turns the sign among the parts. -/
theorem parts_neg (x : Float) : parts (-x) = (parts x).neg := by
  have hstored : parts (-x) = stored (parts x).neg := rfl
  rw [hstored]
  cases h : parts x with
  | notANumber => exact stored_notANumber
  | infinity s => exact stored_infinity _
  | zero s => exact stored_zero _
  | finite s m e hm =>
    obtain ⟨hcanonical, he⟩ := canonical_of_parts h
    exact stored_finite hcanonical he

/-- The absolute value drops the sign among the parts. -/
theorem parts_abs (x : Float) : parts x.abs = (parts x).abs := by
  have hstored : parts x.abs = stored (parts x).abs := rfl
  rw [hstored]
  cases h : parts x with
  | notANumber => exact stored_notANumber
  | infinity s => exact stored_infinity _
  | zero s => exact stored_zero _
  | finite s m e hm =>
    obtain ⟨hcanonical, he⟩ := canonical_of_parts h
    exact stored_finite hcanonical he

/-- The sign among the parts of a double; an undefined one counts as positive. -/
def signOf : UnpackedFloat → Sign
  | .notANumber => .positive
  | .infinity s | .zero s | .finite s _ _ _ => s

/-- The sign field is the topmost bit. -/
private theorem toNat_unpackSign (w : UInt64) :
    (@UnpackedFloat.unpackSign Format.binary64 w.toBitVec).toNat = (w >>> 63).toNat := by
  have hbound := w.toNat_lt
  have hshift : (63 : UInt64).toNat % 64 = 63 := rfl
  unfold UnpackedFloat.unpackSign
  simp only [BitVec.toNat_cast, BitVec.extractLsb_toNat, UInt64.toNat_shiftRight,
    UInt64.toNat_toBitVec, Nat.shiftRight_eq_div_pow, hshift]
  norm_num
  omega

/-- The sign field holds the sign that a double is tested for. -/
private theorem ofBitVec_unpackSign (x : Float) :
    Sign.ofBitVec (@UnpackedFloat.unpackSign Format.binary64 x.toModel.toBits.toBitVec) =
      if isNegative x then .negative else .positive := by
  have hbits : x.toBits = x.toModel.toBits := rfl
  have hsign := toNat_unpackSign x.toModel.toBits
  unfold isNegative Sign.ofBitVec
  rw [hbits]
  generalize @UnpackedFloat.unpackSign Format.binary64 x.toModel.toBits.toBitVec = b at hsign ⊢
  generalize x.toModel.toBits >>> 63 = w at hsign ⊢
  rcases BitVec.eq_zero_or_eq_one b with rfl | rfl
  · obtain rfl : w = 0 := UInt64.toNat_inj.mp hsign.symm
    rfl
  · obtain rfl : w = 1 := UInt64.toNat_inj.mp hsign.symm
    rfl

/-- The sign among the parts is the one that a double is tested for; the only undefined double is a
positive one. -/
theorem signOf_parts (x : Float) :
    signOf (parts x) = if isNegative x then .negative else .positive := by
  rw [← ofBitVec_unpackSign]
  unfold parts Float.Model.unpack UnpackedFloat.unpack
  dsimp only
  split_ifs with hmax hinf hmin hzero
  · rfl
  · rw [x.toModel.valid.eq_packedNaN hmax hinf]
    rfl
  · rfl
  · rfl
  · rfl

/-- Doubles with the same sign among their parts are both negative or both not. -/
theorem isNegative_eq_of_signOf {x y : Float} (h : signOf (parts x) = signOf (parts y)) :
    isNegative x = isNegative y := by
  rw [signOf_parts, signOf_parts] at h
  cases hx : isNegative x <;> cases hy : isNegative y <;> simp [hx, hy] at h ⊢

/-- An infinity takes over the sign of a double. -/
theorem parts_copySign_infinity (x : Float) :
    parts (copySign infinity x) = .infinity (signOf (parts x)) := by
  rw [signOf_parts, copySign]
  split_ifs <;> rfl

end Handheld.Double
