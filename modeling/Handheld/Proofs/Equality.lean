import Handheld.Proofs.Agreement
import Handheld.Proofs.Pointwise

/-!
# Functions respect equality, but for their cuts

Numbers that are equal may still differ in the signs of their zeros, and a function with a branch
cut tells its two sides apart by such a sign. The functions and operators of the language give
results that agree for numbers that are equal, with five exceptions, each on a cut: the angle on the
negative real axis and at zero, the inverse circular functions beyond one, and a power of a negative
base whose exponent is not real.
-/

namespace Handheld

/-- Both fail, or both give numbers that agree. -/
def AgreeResults : Except Fault Number → Except Fault Number → Prop
  | .ok a, .ok b => a.Agree b
  | .error _, .error _ => True
  | _, _ => False

instance : (r r' : Except Fault Number) → Decidable (AgreeResults r r')
  | .ok a, .ok b => inferInstanceAs (Decidable (a.Agree b))
  | .error _, .error _ => .isTrue trivial
  | .ok _, .error _ => .isFalse id
  | .error _, .ok _ => .isFalse id

/-- Both fail, or both give numbers that agree and leave the same scene. -/
def AgreeEndings : Ending (Option Value) → Ending (Option Value) → Prop
  | .ok (some (.number a)) s, .ok (some (.number b)) t => a.Agree b ∧ s = t
  | .error _ _, .error _ _ => True
  | _, _ => False

private theorem AgreeResults.of_eq {r r' : Except Fault Number} (h : r = r') :
    AgreeResults r r' := by
  subst h
  cases r with
  | error => trivial
  | ok a => exact .refl a

/-- What gives a number and touches nothing ends alike exactly if its results agree. -/
theorem agreeEndings_ofExcept (r r' : Except Fault Number) (s : Scene) :
    AgreeEndings (Ending.ofExcept (do return .number (← r)) s)
      (Ending.ofExcept (do return .number (← r')) s) ↔ AgreeResults r r' := by
  cases r with
  | error => cases r' with
    | error => exact Iff.rfl
    | ok => exact Iff.rfl
  | ok => cases r' with
    | error => exact Iff.rfl
    | ok => exact and_iff_left rfl

private theorem Number.re_ne_zero {z : Number} (hzero : z.isZero = false)
    (hreal : z.isReal = true) : (z.re == 0) = false := by
  rwa [isZero_eq_parts, show (z.im == 0) = true from hreal, Bool.and_true] at hzero

namespace Builtin

open Double (agree_zeros)
open Number (agree_of_equals isNaN_of_equals)

section Operators

variable {a a' b b' : Number}

/-- Quotients agree if the dividends do, and fail alike. -/
private theorem agreeResults_divide_left (h : a.Agree a') (b : Number) :
    AgreeResults (a.divide b) (a'.divide b) := by
  unfold Number.divide
  split_ifs
  · trivial
  · exact Number.agree_div_left h b

/-- Quotients by equal numbers agree, and fail alike. -/
private theorem agreeResults_divide_right (h : b.equals b' = true) :
    AgreeResults (a.divide b) (a.divide b') := by
  unfold Number.divide
  rw [← (agree_of_equals h).isZero_eq]
  cases hzero : b.isZero with
  | true => trivial
  | false => exact Number.agree_div_right h hzero a

/-- Comparisons of numbers that agree come out alike, and fail alike. -/
private theorem agreeResults_order (test : Float → Float → Bool)
    (htest : ∀ {x x' y y'}, Double.Agree x x' → Double.Agree y y' → test x y = test x' y')
    (ha : a.Agree a') (hb : b.Agree b') :
    AgreeResults (Number.order test a b) (Number.order test a' b') := by
  unfold Number.order
  rw [ha.isReal_eq, hb.isReal_eq, htest ha.re hb.re]
  exact .of_eq rfl

/-- A power of equal bases, unless they are negative and the exponent is not real. -/
theorem agreeResults_power_left (h : a.equals a' = true)
    (hcut : a.isReal = true → a.re < 0 → b.isReal = true) :
    AgreeResults (a.power b) (a'.power b) := by
  have hagree := agree_of_equals h
  unfold Number.power
  rw [← hagree.isZero_eq, ← hagree.isReal_eq]
  cases hzero : a.isZero with
  | true =>
    simp only [if_true]
    exact .of_eq rfl
  | false =>
    cases hboth : a.isReal && b.isReal with
    | true =>
      obtain ⟨hreal, -⟩ := Bool.and_eq_true_iff.mp hboth
      simp only [hagree.re.eq_of_ne_zero (Number.re_ne_zero hzero hreal), Bool.false_eq_true,
        if_false, if_true]
      exact .of_eq rfl
    | false =>
      have hpos (hreal : a.isReal = true) : 0 < a.re := by
        apply Double.pos_of_not_lt (isNaN_of_equals h).1 (Number.re_ne_zero hzero hreal)
        intro hlt
        rw [hreal, hcut hreal hlt] at hboth
        cases hboth
      simp only [Bool.false_eq_true, if_false]
      exact Number.agree_pow hagree.modulus_eq (Number.agree_phase h hpos) (.refl b)

/-- Powers agree if the exponents do, and fail alike. -/
private theorem agreeResults_power_right (a : Number) (h : b.Agree b') :
    AgreeResults (a.power b) (a.power b') := by
  have hintegral : Double.isIntegral b.re = Double.isIntegral b'.re :=
    h.re.congr (f := Double.isIntegral) rfl
  have hpow (x : Float) : Double.pow x b.re = Double.pow x b'.re := Double.pow_congr x h.re
  unfold Number.power
  simp only [← h.isZero_eq, ← h.isReal_eq, ← h.re.le_iff (.refl 0), ← hintegral, ← hpow]
  split_ifs
  · trivial
  · exact .refl _
  · exact .refl _
  · exact Number.agree_pow rfl (.refl _) (.ofReal h.re)
  · exact Number.agree_pow rfl (.refl _) h

/-- Most operators see the sign of a zero in neither operand. -/
theorem agreeResults_onNumbers {op : BinaryOp} (hdivide : op ≠ .divide) (hpower : op ≠ .power)
    (ha : a.Agree a') (hb : b.Agree b') :
    AgreeResults (op.onNumbers a b) (op.onNumbers a' b') := by
  have hequals := ha.equals_eq hb
  cases op with
  | divide => exact absurd rfl hdivide
  | power => exact absurd rfl hpower
  | add => exact ha.add hb
  | subtract => exact ha.sub hb
  | multiply => exact ha.mul hb
  | equal => exact .of_eq (by simp only [BinaryOp.onNumbers, hequals])
  | notEqual => exact .of_eq (by simp only [BinaryOp.onNumbers, hequals])
  | less => exact agreeResults_order _ (fun hx hy => decide_eq_decide.mpr (hx.lt_iff hy)) ha hb
  | greater => exact agreeResults_order _ (fun hx hy => decide_eq_decide.mpr (hy.lt_iff hx)) ha hb
  | lessEqual => exact agreeResults_order _ (fun hx hy => decide_eq_decide.mpr (hx.le_iff hy)) ha hb
  | greaterEqual =>
    exact agreeResults_order _ (fun hx hy => decide_eq_decide.mpr (hy.le_iff hx)) ha hb
  | and => exact .of_eq (by simp only [BinaryOp.onNumbers, ha.isZero_eq, hb.isZero_eq])
  | or => exact .of_eq (by simp only [BinaryOp.onNumbers, ha.isZero_eq, hb.isZero_eq])
  | xor => exact .of_eq (by simp only [BinaryOp.onNumbers, ha.isZero_eq, hb.isZero_eq])

/-- Every operator respects equal left operands, but for powers of negative numbers with an exponent
that is not real. -/
theorem agreeResults_onNumbers_left (op : BinaryOp) (h : a.equals a' = true)
    (hcut : op = .power → a.isReal = true → a.re < 0 → b.isReal = true) :
    AgreeResults (op.onNumbers a b) (op.onNumbers a' b) := by
  have hagree := agree_of_equals h
  by_cases hdivide : op = .divide
  · subst hdivide
    exact agreeResults_divide_left hagree b
  by_cases hpower : op = .power
  · subst hpower
    exact agreeResults_power_left h (hcut rfl)
  exact agreeResults_onNumbers hdivide hpower hagree (.refl b)

/-- Every operator respects equal right operands. -/
theorem agreeResults_onNumbers_right (op : BinaryOp) (a : Number) (h : b.equals b' = true) :
    AgreeResults (op.onNumbers a b) (op.onNumbers a b') := by
  have hagree := agree_of_equals h
  by_cases hdivide : op = .divide
  · subst hdivide
    exact agreeResults_divide_right h
  by_cases hpower : op = .power
  · subst hpower
    exact agreeResults_power_right a hagree
  exact agreeResults_onNumbers hdivide hpower (.refl a) hagree

end Operators

/-- The function gives results that agree for equal numbers of a class. -/
def Respects (off : Number → Prop) (fn : Number → Except Fault Number) : Prop :=
  ∀ z z' : Number, z.equals z' = true → off z → AgreeResults (fn z) (fn z')

section Functions

variable {off : Number → Prop} {r : Float → Float} {c : Number → Number}

/-- A total function that keeps agreement. -/
theorem respects_of_agree (hc : ∀ z z', Number.Agree z z' → (c z).Agree (c z')) :
    Respects off (fun z => .ok (c z)) :=
  fun _ _ h _ => hc _ _ (agree_of_equals h)

/-- What is done to each part respects equality if it does so at the two zeros. -/
private theorem respects_partwise (hr : Double.Agree (r 0) (r (-0))) : Respects off (partwise r) :=
  respects_of_agree fun _ _ h => h.mapParts hr

/-- A function with one rule for real numbers and one for the others respects equality if both rules
do at the zeros. -/
private theorem respects_realOrComplex (hr : Double.Agree (r 0) (r (-0)))
    (hc : ∀ z : Number, off z → (z.im == 0) = false → (z.re == 0) = true →
      (c ⟨0, z.im⟩).Agree (c ⟨-0, z.im⟩)) :
    Respects off (realOrComplex r c) := by
  intro z z' h hoff
  have hagree := agree_of_equals h
  unfold realOrComplex
  rw [← hagree.isReal_eq]
  cases hreal : z.isReal with
  | true => exact .ofReal (hagree.re.map hr)
  | false => exact hagree.map_of_not_real hreal (hc z hoff hreal)

/-- An inverse function with a real rule within the unit respects equality off its cuts. -/
private theorem respects_arc (hoff : ∀ z, off z → z.isReal = true → z.re.abs ≤ 1)
    (hr : Double.Agree (r 0) (r (-0)))
    (hc : ∀ y : Float, y.isNaN = false → (y == 0) = false → (c ⟨0, y⟩).Agree (c ⟨-0, y⟩)) :
    Respects off (arc r c) := by
  intro z z' h hz
  have hagree := agree_of_equals h
  unfold arc
  rw [← hagree.isReal_eq, ← hagree.re.abs_eq]
  cases hreal : z.isReal with
  | true =>
    simp only [hoff z hz hreal, decide_true, Bool.and_self, if_true]
    exact .ofReal (hagree.re.map hr)
  | false => exact hagree.map_of_not_real hreal fun _ => hc z.im (isNaN_of_equals h).2 hreal

/-- Logarithms respect equality. -/
private theorem respects_logarithm (hc : ∀ y : Float, (y == 0) = false → c ⟨0, y⟩ = c ⟨-0, y⟩) :
    Respects off (logarithm r c) := by
  intro z z' h _
  have hagree := agree_of_equals h
  unfold logarithm
  rw [← hagree.isReal_eq, ← hagree.isZero_eq]
  cases hzero : z.isZero with
  | true => trivial
  | false =>
    cases hreal : z.isReal with
    | true =>
      simp only [hagree.re.eq_of_ne_zero (Number.re_ne_zero hzero hreal), Bool.false_eq_true,
        if_false, if_true]
      exact .of_eq rfl
    | false =>
      simp only [hagree.congr_of_not_real hreal (hc z.im hreal), Bool.false_eq_true, if_false]
      exact .of_eq rfl

/-- The factorial respects equality. -/
private theorem respects_factorial : Respects off factorial := by
  intro z z' h _
  obtain ⟨hre, him⟩ := agree_of_equals h
  have hreal : z.isReal = z'.isReal := him.beq_zero_eq
  have hintegral : Double.isIntegral z.re = Double.isIntegral z'.re :=
    hre.congr (f := Double.isIntegral) rfl
  have hmagnitude : Double.magnitude z.re = Double.magnitude z'.re :=
    hre.congr (f := Double.magnitude) rfl
  simp only [factorial, hreal, hintegral, hmagnitude, (Double.Agree.refl 0).le_iff hre,
    hre.le_iff (.refl _)]
  split_ifs
  · exact .refl _
  · trivial

/-- The square root respects equality. -/
private theorem respects_squareRoot : Respects off squareRoot := by
  intro z z' h _
  have hagree := agree_of_equals h
  unfold squareRoot
  rw [← hagree.isReal_eq]
  cases hreal : z.isReal with
  | true =>
    simp only [hagree.re.lt_iff (.refl 0), if_true]
    split_ifs
    · exact ⟨.refl 0, hagree.re.map (f := fun x => (-x).sqrt) (.inl rfl)⟩
    · exact .ofReal (hagree.re.map (f := Float.sqrt) (.inl rfl))
  | false =>
    have heq : z.sqrt = z'.sqrt := hagree.congr_of_not_real hreal (Number.sqrt_axis hreal)
    simp only [heq, Bool.false_eq_true, if_false]
    exact .of_eq rfl

/-- The tangent respects equality. -/
private theorem respects_tangent : Respects off tangent := by
  intro z z' h _
  have hagree := agree_of_equals h
  unfold tangent
  rw [← hagree.isReal_eq]
  cases hreal : z.isReal with
  | true =>
    have hcos : Double.cos z.re = Double.cos z'.re :=
      hagree.re.congr (f := Double.cos) Number.cos_zeros
    simp only [hcos, if_true]
    split_ifs
    · trivial
    · exact .ofReal (hagree.re.map (f := Double.tan) (.inl rfl))
  | false => exact hagree.map_of_not_real hreal fun _ => Number.agree_tan

private theorem respects_inverse : Respects off inverse :=
  fun _ _ h _ => agreeResults_divide_right h

end Functions

/-- The class of numbers off the cut of a function, for the functions that have one. -/
structure OffCut (name : String) (z : Number) : Prop where
  angle : name = "angle" → z.isReal = true → 0 < z.re
  arc : name = "sin⁻¹" ∨ name = "cos⁻¹" → z.isReal = true → z.re.abs ≤ 1
  arctangent : name = "tan⁻¹" → (z.re == 0) = true → z.im.abs ≤ 1

/-- Every function of one number respects equality off its cut. -/
theorem respects_of_mem {name : String} {fn : Number → Except Fault Number}
    (h : (name, fn) ∈ unaryFunctions) : Respects (OffCut name) fn := by
  simp only [unaryFunctions, List.mem_cons, List.not_mem_nil, or_false, Prod.mk.injEq] at h
  rcases h with ⟨rfl, rfl⟩ | ⟨rfl, rfl⟩ | ⟨rfl, rfl⟩ | ⟨rfl, rfl⟩ | ⟨rfl, rfl⟩ | ⟨rfl, rfl⟩ |
    ⟨rfl, rfl⟩ | ⟨rfl, rfl⟩ | ⟨rfl, rfl⟩ | ⟨rfl, rfl⟩ | ⟨rfl, rfl⟩ | ⟨rfl, rfl⟩ | ⟨rfl, rfl⟩ |
    ⟨rfl, rfl⟩ | ⟨rfl, rfl⟩ | ⟨rfl, rfl⟩ | ⟨rfl, rfl⟩ | ⟨rfl, rfl⟩ | ⟨rfl, rfl⟩ | ⟨rfl, rfl⟩ |
    ⟨rfl, rfl⟩ | ⟨rfl, rfl⟩ | ⟨rfl, rfl⟩
  · exact respects_of_agree fun _ _ h => (Number.Agree.refl _).sub h
  · exact respects_of_agree fun _ _ h => h.mul h
  · exact respects_inverse
  · exact respects_factorial
  · exact respects_squareRoot
  · exact respects_of_agree fun _ _ h => .of_eq (by rw [h.modulus_eq])
  · exact respects_realOrComplex (.inl rfl) fun _ _ _ _ => Number.agree_sin
  · exact respects_realOrComplex (.of_eq rfl) fun _ _ _ _ => Number.agree_cos
  · exact respects_tangent
  · exact respects_arc (fun z hz => hz.arc (.inl rfl)) (.inl rfl) fun _ => Number.agree_asin
  · exact respects_arc (fun z hz => hz.arc (.inr rfl)) (.inl rfl) fun _ => Number.agree_acos
  · exact respects_realOrComplex (.inl rfl) fun _ hz hreal hzero =>
      Number.agree_atan hreal (hz.arctangent rfl hzero)
  · exact respects_logarithm fun _ => Number.log_axis
  · exact respects_logarithm fun _ => Number.log10_axis
  · exact respects_realOrComplex (.of_eq Number.exp_zeros) fun _ _ _ _ => .of_eq Number.exp_axis
  · exact respects_partwise (.inl rfl)
  · exact respects_partwise (.inl rfl)
  · exact respects_partwise (.inl rfl)
  · exact respects_of_agree fun _ _ h => .ofReal h.re
  · exact respects_of_agree fun _ _ h => .ofReal h.im
  · exact respects_of_agree fun _ _ h => ⟨h.re, h.im.neg⟩
  · exact fun _ _ h hz => .ofReal (Number.agree_phase h (hz.angle rfl))
  · exact respects_of_agree fun _ _ h => .of_eq (by rw [h.isZero_eq])

/-- The command of a function comes out alike exactly if the function does. -/
private theorem agreeEndings_run_unary {name symbol : String} {fn : Number → Except Fault Number}
    (h : registry[name]? = some (.unary symbol fn)) (z z' : Number) (w : World) :
    AgreeEndings (Outcome.seen (registry.run name [some (.number z)] w))
      (Outcome.seen (registry.run name [some (.number z')] w)) ↔ AgreeResults (fn z) (fn z') := by
  rw [seen_run_unary h, seen_run_unary h]
  exact agreeEndings_ofExcept (fn z) (fn z') w.scene

/-- The command of an operator comes out alike exactly if the operator does. -/
private theorem agreeEndings_run_binary (op : BinaryOp) (a a' b b' : Number) (w : World) :
    AgreeEndings (Outcome.seen (registry.run op.symbol [some (.number a), some (.number b)] w))
        (Outcome.seen (registry.run op.symbol [some (.number a'), some (.number b')] w)) ↔
      AgreeResults (op.onNumbers a b) (op.onNumbers a' b') := by
  rw [seen_run_binary, seen_run_binary]
  exact agreeEndings_ofExcept (op.onNumbers a b) (op.onNumbers a' b') w.scene

/-- The functions that tell apart equal numbers on the cut. -/
theorem exists_not_agreeResults {name : String}
    (h : name ∈ ["angle", "sin⁻¹", "cos⁻¹", "tan⁻¹"]) :
    ∃ fn, (name, fn) ∈ unaryFunctions ∧
      ∃ z z' : Number, z.equals z' = true ∧ ¬ AgreeResults (fn z) (fn z') := by
  simp only [List.mem_cons, List.not_mem_nil, or_false] at h
  obtain rfl | rfl | rfl | rfl := h
  · exact ⟨fun z => .ok (.ofReal z.phase), by simp [unaryFunctions], ⟨-1, 0⟩, ⟨-1, -0⟩,
      by decide +kernel⟩
  · exact ⟨arc Double.asin Number.asin, by simp [unaryFunctions], ⟨2, 0⟩, ⟨2, -0⟩,
      by decide +kernel⟩
  · exact ⟨arc Double.acos Number.acos, by simp [unaryFunctions], ⟨2, 0⟩, ⟨2, -0⟩,
      by decide +kernel⟩
  · exact ⟨realOrComplex Double.atan Number.atan, by simp [unaryFunctions], ⟨0, 2⟩, ⟨-0, 2⟩,
      by decide +kernel⟩

/-- Every function of one number and every operator, run by its name on numbers that are equal,
fails for both or gives numbers whose parts are equal or both undefined, and touches nothing: off
the cuts of the angle and of the inverse circular functions, with a real exponent wherever the base
of a power is a negative number, and without exception for the right operand. Each exception is
one. -/
theorem run_agree_of_equals (w : World) :
    (∀ name symbol fn, registry[name]? = some (.unary symbol fn) →
      ∀ z z' : Number, z.equals z' = true → OffCut name z →
        AgreeEndings (Outcome.seen (registry.run name [some (.number z)] w))
          (Outcome.seen (registry.run name [some (.number z')] w))) ∧
    (∀ (op : BinaryOp) (a a' b : Number), a.equals a' = true →
      (op = .power → a.isReal = true → a.re < 0 → b.isReal = true) →
        AgreeEndings (Outcome.seen (registry.run op.symbol [some (.number a), some (.number b)] w))
          (Outcome.seen (registry.run op.symbol [some (.number a'), some (.number b)] w))) ∧
    (∀ (op : BinaryOp) (a b b' : Number), b.equals b' = true →
      AgreeEndings (Outcome.seen (registry.run op.symbol [some (.number a), some (.number b)] w))
        (Outcome.seen (registry.run op.symbol [some (.number a), some (.number b')] w))) ∧
    (∀ name ∈ ["angle", "sin⁻¹", "cos⁻¹", "tan⁻¹"], ∃ z z' : Number, z.equals z' = true ∧
      ¬ AgreeEndings (Outcome.seen (registry.run name [some (.number z)] w))
        (Outcome.seen (registry.run name [some (.number z')] w))) ∧
    ∃ a a' b : Number, a.equals a' = true ∧
      ¬ AgreeEndings
        (Outcome.seen (registry.run BinaryOp.power.symbol [some (.number a), some (.number b)] w))
        (Outcome.seen (registry.run BinaryOp.power.symbol [some (.number a'), some (.number b)] w)) := by
  refine ⟨?_, ?_, ?_, ?_, ?_⟩
  · intro name symbol fn h z z' hequals hoff
    rw [agreeEndings_run_unary h]
    exact respects_of_mem (getElem?_eq_unary_iff.mp h).2 z z' hequals hoff
  · intro op a a' b hequals hcut
    rw [agreeEndings_run_binary]
    exact agreeResults_onNumbers_left op hequals hcut
  · intro op a b b' hequals
    rw [agreeEndings_run_binary]
    exact agreeResults_onNumbers_right op a hequals
  · intro name hname
    obtain ⟨fn, hmem, z, z', hequals, hnot⟩ := exists_not_agreeResults hname
    refine ⟨z, z', hequals, ?_⟩
    rwa [agreeEndings_run_unary (getElem?_eq_unary_iff.mpr ⟨rfl, hmem⟩)]
  · refine ⟨⟨-1, 0⟩, ⟨-1, -0⟩, .imaginaryUnit, by decide +kernel, ?_⟩
    rw [agreeEndings_run_binary]
    decide +kernel

/-- The root of a negative number, a real power of one, and a quotient, on both sides of the real
axis. -/
theorem run_agree_of_equals_negative :
    let w := World.new ⟨fun _ => .ok "", fun _ _ => none⟩ .trace
    let above : Number := ⟨-4, 0⟩
    let below : Number := ⟨-4, -0⟩
    above.equals below = true ∧ OffCut "√" above ∧
    AgreeEndings (Outcome.seen (registry.run "√" [some (.number above)] w))
      (Outcome.seen (registry.run "√" [some (.number below)] w)) ∧
    AgreeEndings (Outcome.seen (registry.run "^" [some (.number above), some (.number ⟨0.5, 0⟩)] w))
      (Outcome.seen (registry.run "^" [some (.number below), some (.number ⟨0.5, 0⟩)] w)) ∧
    AgreeEndings (Outcome.seen (registry.run "/" [some (.number .one), some (.number above)] w))
      (Outcome.seen (registry.run "/" [some (.number .one), some (.number below)] w)) := by
  intro w above below
  have hequals : above.equals below = true := by decide +kernel
  have hoff : OffCut "√" above := ⟨by decide, by decide, by decide⟩
  have hroot : registry["√"]? = some (.unary "√" squareRoot) :=
    getElem?_eq_unary_iff.mpr ⟨rfl, by simp [unaryFunctions]⟩
  obtain ⟨hunary, hleft, hright, -⟩ := run_agree_of_equals w
  exact ⟨hequals, hoff, hunary _ _ _ hroot above below hequals hoff,
    hleft .power above below ⟨0.5, 0⟩ hequals fun _ _ _ => rfl,
    hright .divide .one above below hequals⟩

/-- Equality alone is not enough: the two sides of the negative real axis have opposite angles. -/
theorem not_run_agree_of_equals :
    ¬ ∀ (w : World) (name symbol : String) (fn : Number → Except Fault Number),
      registry[name]? = some (.unary symbol fn) → ∀ z z' : Number, z.equals z' = true →
        AgreeEndings (Outcome.seen (registry.run name [some (.number z)] w))
          (Outcome.seen (registry.run name [some (.number z')] w)) := by
  intro h
  have hangle : registry["angle"]? = some (.unary "angle" fun z => .ok (.ofReal z.phase)) :=
    getElem?_eq_unary_iff.mpr ⟨rfl, by simp [unaryFunctions]⟩
  have hagree := h (World.new ⟨fun _ => .ok "", fun _ _ => none⟩ .trace) _ _ _ hangle ⟨-1, 0⟩ ⟨-1, -0⟩ rfl
  rw [agreeEndings_run_unary hangle] at hagree
  revert hagree
  decide +kernel

end Builtin

end Handheld
