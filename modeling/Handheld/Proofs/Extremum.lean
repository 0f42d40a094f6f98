import Handheld.Proofs.Pointwise
import Mathlib.Data.Int.Order.Basic
import Mathlib.Data.Prod.Lex

/-!
# The least and the greatest element of a list

Doubles are ordered by their ranks, and an undefined one has none: the order is strict but not
total. `min` and `max` go through a list and keep the better of two elements, so no element is
better than the one that is kept at the end, undefined ones included. Whether numbers are real is
looked at where two of them are compared. That is every element of a list, unless it is the only
one.
-/

namespace Handheld

namespace Double

open Float.Model (UnpackedFloat)
open Float.Model.UnpackedFloat (Sign)

/-- Where a double stands among the others: its sign and class first, then its exponent, then its
mantissa, all of them turned round for a negative one. -/
def rank : UnpackedFloat → Option (ℤ ×ₗ ℤ ×ₗ ℤ)
  | .notANumber => none
  | .infinity s => some (toLex (s.apply 2, toLex (0, 0)))
  | .zero _ => some (toLex (0, toLex (0, 0)))
  | .finite s m e _ => some (toLex (s.apply 1, toLex (s.apply e, s.apply m)))

private theorem compare_magnitudes_eq_lt {m n : ℕ} {e f : ℤ} :
    (compare e f).then (compare m n) = .lt ↔ e < f ∨ e = f ∧ m < n := by
  rw [Ordering.then_eq_lt, Int.compare_eq_lt, Int.compare_eq_eq, Nat.compare_eq_lt]

private theorem compare_magnitudes_eq_gt {m n : ℕ} {e f : ℤ} :
    (compare e f).then (compare m n) = .gt ↔ f < e ∨ e = f ∧ n < m := by
  rw [Ordering.then_eq_gt, Int.compare_eq_gt, Int.compare_eq_eq, Nat.compare_eq_gt]

/-- To be less is to have a lower rank. -/
theorem unpacked_lt_iff (a b : UnpackedFloat) :
    a.lt b = true ↔ ∃ i ∈ rank a, ∃ j ∈ rank b, i < j := by
  have hself (s : Sign) : compare s s = .eq := by cases s <;> rfl
  have hup : compare Sign.negative Sign.positive = .lt := rfl
  have hdown : compare Sign.positive Sign.negative = .gt := rfl
  rcases a with (_ | _) | _ | _ | ⟨_ | _, m, e, _⟩ <;>
    rcases b with (_ | _) | _ | _ | ⟨_ | _, n, f, _⟩ <;>
    dsimp only [UnpackedFloat.lt, UnpackedFloat.compare, rank, Sign.apply] <;>
    simp [hself, hup, hdown, Prod.Lex.toLex_lt_toLex, compare_magnitudes_eq_lt,
      compare_magnitudes_eq_gt]

/-- Doubles are ordered by their ranks; an undefined one has none. -/
theorem lt_iff {x y : Float} :
    x < y ↔ ∃ i ∈ rank x.toModel.unpack, ∃ j ∈ rank y.toModel.unpack, i < j := by
  have hmodel : x < y ↔ x.toModel.unpack.lt y.toModel.unpack = true := decide_eq_true_iff
  rw [hmodel, unpacked_lt_iff]

/-- No double is below itself. -/
theorem lt_irrefl (x : Float) : ¬ x < x := by
  rw [lt_iff]
  rintro ⟨i, hi, j, hj, h⟩
  exact h.ne (Option.mem_unique hi hj)

/-- The order of doubles is transitive. -/
theorem lt_trans {x y z : Float} (hxy : x < y) (hyz : y < z) : x < z := by
  rw [lt_iff] at hxy hyz ⊢
  obtain ⟨i, hi, j, hj, hij⟩ := hxy
  obtain ⟨j', hj', k, hk, hjk⟩ := hyz
  cases Option.mem_unique hj hj'
  exact ⟨i, hi, k, hk, hij.trans hjk⟩

end Double

namespace Builtin

/-- The comparison is a strict order. Two different doubles may be such that neither is better. -/
structure Strict (better : Float → Float → Bool) : Prop where
  irrefl (x : Float) : better x x = false
  trans {x y z : Float} (hxy : better x y = true) (hyz : better y z = true) : better x z = true

/-- The order is strict. -/
theorem strict_less : Strict (· < ·) where
  irrefl x := decide_eq_false (Double.lt_irrefl x)
  trans hxy hyz := decide_eq_true (Double.lt_trans (of_decide_eq_true hxy) (of_decide_eq_true hyz))

/-- The reverse order is strict. -/
theorem strict_greater : Strict (· > ·) where
  irrefl x := decide_eq_false (Double.lt_irrefl x)
  trans hxy hyz := decide_eq_true (Double.lt_trans (of_decide_eq_true hyz) (of_decide_eq_true hxy))

/-- The number is in the list, and no element has a better real part. -/
structure Best (better : Float → Float → Bool) (zs : List Number) (z : Number) : Prop where
  mem : z ∈ zs
  best : ∀ y ∈ zs, better y.re z.re = false

section Picking

variable {name : String} {better : Float → Float → Bool} {a b z : Number} {zs : List Number}

/-- Two numbers that are not both real are not compared. -/
theorem pick_error (h : a.isReal = false ∨ b.isReal = false) :
    pick name better a b = .error (.domain (.notReal name)) := by
  rcases h with h | h <;> simp [pick, h]

/-- Of two real numbers one is picked, and it is the best of all that the first was the best of:
what is better than the second one, if that is better, is better than the first. -/
theorem Best.pick (name : String) (hbetter : Strict better) {seen : List Number}
    (h : Best better seen a) (ha : a.isReal = true) (hb : b.isReal = true) :
    ∃ c, Builtin.pick name better a b = .ok c ∧ c.isReal = true ∧ Best better (seen ++ [b]) c := by
  by_cases hba : better b.re a.re = true
  · refine ⟨b, by simp [Builtin.pick, ha, hb, hba], hb, by simp, fun y hy => ?_⟩
    rcases List.mem_append.mp hy with hy | hy
    · by_contra hyb
      have hya := hbetter.trans (Bool.eq_true_of_not_eq_false hyb) hba
      rw [h.best y hy] at hya
      cases hya
    · rw [List.mem_singleton.mp hy]
      exact hbetter.irrefl b.re
  · refine ⟨a, by simp [Builtin.pick, ha, hb, hba], ha, by simp [h.mem], fun y hy => ?_⟩
    rcases List.mem_append.mp hy with hy | hy
    · exact h.best y hy
    · rw [List.mem_singleton.mp hy]
      exact Bool.eq_false_of_not_eq_true hba

/-- Among real numbers the best one is kept. -/
theorem Best.foldlM_pick (name : String) (hbetter : Strict better) {seen : List Number}
    (h : Best better seen z) (hz : z.isReal = true) (hzs : ∀ y ∈ zs, y.isReal = true) :
    ∃ c, zs.foldlM (Builtin.pick name better) z = .ok c ∧ Best better (seen ++ zs) c := by
  induction zs generalizing z seen with
  | nil =>
    rw [List.append_nil]
    exact ⟨z, rfl, h⟩
  | cons y zs ih =>
    obtain ⟨hy, hzs⟩ := List.forall_mem_cons.mp hzs
    obtain ⟨x, hx, hreal, hbest⟩ := h.pick name hbetter hz hy
    obtain ⟨c, hc, hbest⟩ := ih hbest hreal hzs
    rw [List.append_assoc, List.singleton_append] at hbest
    refine ⟨c, ?_, hbest⟩
    rw [List.foldlM_cons, hx]
    exact hc

/-- A number that is not real is found out as soon as there is another one to compare it with, by
whichever was picked before. -/
theorem foldlM_pick_error (hne : zs ≠ []) (h : ∃ y ∈ z :: zs, y.isReal = false) :
    zs.foldlM (pick name better) z = .error (.domain (.notReal name)) := by
  induction zs generalizing z with
  | nil => exact absurd rfl hne
  | cons y zs ih =>
    rw [List.foldlM_cons]
    by_cases hreal : z.isReal = false ∨ y.isReal = false
    · rw [pick_error hreal]
      rfl
    · obtain ⟨hz, hy⟩ := not_or.mp hreal
      have hz := Bool.eq_true_of_not_eq_false hz
      have hy := Bool.eq_true_of_not_eq_false hy
      obtain ⟨x, hx, hunreal⟩ : ∃ x ∈ zs, x.isReal = false := by
        simpa [hz, hy] using h
      have hpick : pick name better z y = .ok (if better y.re z.re then y else z) := by
        simp [pick, hz, hy]
      rw [hpick]
      exact ih (List.ne_nil_of_mem hx) ⟨x, List.mem_cons_of_mem _ hx, hunreal⟩

end Picking

/-- What a function makes of a list whose best element it is to find: the list must have an element,
and of several elements each must be real. -/
structure FindsBest (better : Float → Float → Bool) (zs : List Number) (s : Scene)
    (out : Ending (Option Value)) : Prop where
  argument : (∃ f, out = .error f s ∧ f.reason = .argument) ↔ zs = []
  domain : (∃ f, out = .error f s ∧ f.reason = .domain) ↔
    2 ≤ zs.length ∧ ∃ z ∈ zs, z.isReal = false
  found : (∃ z, out = .ok (some (.number z)) s ∧ Best better zs z) ↔
    zs ≠ [] ∧ (2 ≤ zs.length → ∀ z ∈ zs, z.isReal = true)

section Findings

variable {better : Float → Float → Bool} {zs : List Number} {s : Scene}

/-- An empty list has to be refused for its argument. -/
private theorem findsBest_nil {f : Fault} (hf : f.reason = .argument) :
    FindsBest better [] s (.error f s) := by
  refine ⟨⟨fun _ => rfl, fun _ => ⟨f, rfl, hf⟩⟩, ⟨?_, by simp⟩, ⟨?_, by simp⟩⟩
  · rintro ⟨g, hg, hreason⟩
    cases hg
    rw [hf] at hreason
    cases hreason
  · rintro ⟨z, hz, -⟩
    cases hz

/-- Several elements of which one is not real have to be refused for their domain. -/
private theorem findsBest_unreal {f : Fault} (hf : f.reason = .domain) (hlength : 2 ≤ zs.length)
    (h : ∃ z ∈ zs, z.isReal = false) : FindsBest better zs s (.error f s) := by
  obtain ⟨z, hz, hunreal⟩ := h
  refine ⟨⟨?_, ?_⟩, ⟨fun _ => ⟨hlength, z, hz, hunreal⟩, fun _ => ⟨f, rfl, hf⟩⟩, ⟨?_, ?_⟩⟩
  · rintro ⟨g, hg, hreason⟩
    cases hg
    rw [hf] at hreason
    cases hreason
  · rintro rfl
    cases hz
  · rintro ⟨y, hy, -⟩
    cases hy
  · rintro ⟨-, hreal⟩
    rw [hreal hlength z hz] at hunreal
    cases hunreal

/-- The best element may be found, provided that all are real if there are several. -/
private theorem Best.findsBest {z : Number} (h : Best better zs z)
    (hreal : 2 ≤ zs.length → ∀ y ∈ zs, y.isReal = true) :
    FindsBest better zs s (.ok (some (.number z)) s) := by
  have hne : zs ≠ [] := List.ne_nil_of_mem h.mem
  refine ⟨⟨?_, fun hnil => absurd hnil hne⟩, ⟨?_, ?_⟩, ⟨fun _ => ⟨hne, hreal⟩, fun _ => ⟨z, rfl, h⟩⟩⟩
  · rintro ⟨f, hf, -⟩
    cases hf
  · rintro ⟨f, hf, -⟩
    cases hf
  · rintro ⟨hlength, y, hy, hunreal⟩
    rw [hreal hlength y hy] at hunreal
    cases hunreal

end Findings

/-- The only element is the best one. -/
private theorem best_singleton {better : Float → Float → Bool} (hbetter : Strict better)
    (z : Number) : Best better [z] z := by
  refine ⟨List.mem_singleton.mpr rfl, fun y hy => ?_⟩
  rw [List.mem_singleton.mp hy]
  exact hbetter.irrefl z.re

/-- A command that finds the best element of a list by comparing elements. -/
theorem findsBest_of_mem {name : String} {better : Float → Float → Bool} (hbetter : Strict better)
    (hmem : (name, .function 1 2 [[.number, .list]] (extremum name better)) ∈ commands)
    (w : World) (zs : List Number) :
    FindsBest better zs w.scene (Outcome.seen (registry.run name [some (.list zs)] w)) := by
  rw [seen_run_function hmem rfl]
  match zs with
  | [] => exact findsBest_nil rfl
  | [z] => exact (best_singleton hbetter z).findsBest (by simp)
  | z :: y :: zs =>
    have hlength : 2 ≤ (z :: y :: zs).length := Nat.le_add_left 2 zs.length
    have hextremum : extremum name better [some (.list (z :: y :: zs))] = do
        return some (.number (← (y :: zs).foldlM (pick name better) z)) := rfl
    rw [hextremum]
    by_cases hreal : ∀ x ∈ z :: y :: zs, x.isReal = true
    · obtain ⟨hz, hzs⟩ := List.forall_mem_cons.mp hreal
      obtain ⟨c, hc, hbest⟩ := (best_singleton hbetter z).foldlM_pick name hbetter hz hzs
      rw [hc]
      exact hbest.findsBest fun _ => hreal
    · have hunreal : ∃ x ∈ z :: y :: zs, x.isReal = false := by
        simpa only [not_forall, exists_prop, Bool.not_eq_true] using hreal
      rw [foldlM_pick_error (List.cons_ne_nil y zs) hunreal]
      exact findsBest_unreal rfl hlength hunreal

private theorem mem_min :
    ("min", .function 1 2 [[.number, .list]] (extremum "min" (· < ·))) ∈ commands := by
  simp [commands, functions]

private theorem mem_max :
    ("max", .function 1 2 [[.number, .list]] (extremum "max" (· > ·))) ∈ commands := by
  simp [commands, functions]

/-- The least and the greatest element of a list. An empty list is refused, and so is a list of
several elements that are not all real. Any other list gives one of its elements such that no
element has a smaller real part, or a greater one. An only element is given back even if it is not
real. -/
theorem extremum_of_list (w : World) (zs : List Number) :
    FindsBest (· < ·) zs w.scene (Outcome.seen (registry.run "min" [some (.list zs)] w)) ∧
      FindsBest (· > ·) zs w.scene (Outcome.seen (registry.run "max" [some (.list zs)] w)) :=
  ⟨findsBest_of_mem strict_less mem_min w zs, findsBest_of_mem strict_greater mem_max w zs⟩

/-- A list with an element that is not real is not always refused: an only element is not looked
at. -/
theorem extremum_of_only_element :
    ¬ ∀ (w : World) (zs : List Number),
      (∃ f, Outcome.seen (registry.run "min" [some (.list zs)] w) = .error f w.scene ∧
        f.reason = .domain) ↔ ∃ z ∈ zs, z.isReal = false := by
  intro h
  let w := World.new (.stream "") .trace
  have hunreal : ∃ z ∈ [Number.imaginaryUnit], z.isReal = false :=
    ⟨_, List.mem_singleton.mpr rfl, by decide +kernel⟩
  have hfinds := findsBest_of_mem strict_less mem_min w [.imaginaryUnit]
  have hlength := (hfinds.domain.mp ((h w [.imaginaryUnit]).mpr hunreal)).1
  exact absurd hlength (by decide)

end Builtin

end Handheld
