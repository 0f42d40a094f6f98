import Handheld.Builtin
import Mathlib.Data.List.Basic

/-!
# What the built-in commands refuse

A command computes a number, or a list as long as one of its arguments, or it refuses: its arguments
are wrong in number or kind, or the function is undefined there. Any other fault of a computation
says that the arguments were not checked before, so it cannot occur after the check.
-/

namespace Handheld

/-- The arguments are wrong in number or kind, or a function is undefined at them. -/
def Fault.Refusal (f : Fault) : Prop := f.reason = .argument ∨ f.reason = .domain

section Computations

variable {α β : Type} {Q : α → Prop} {S : β → Prop} {R : Fault → Prop}

/-- The results of the computation satisfy `Q`, and its faults `R`. -/
def Meets (x : Except Fault α) (Q : α → Prop) (R : Fault → Prop) : Prop :=
  match x with
  | .ok a => Q a
  | .error f => R f

theorem meets_ok {a : α} (h : Q a) : Meets (.ok a) Q R := h

theorem meets_error {f : Fault} (h : R f) : Meets (.error f : Except Fault α) Q R := h

/-- A computation meets whatever follows from what it meets. -/
theorem Meets.mono {Q' : α → Prop} {R' : Fault → Prop} {x : Except Fault α} (h : Meets x Q R)
    (hQ : ∀ a, Q a → Q' a) (hR : ∀ f, R f → R' f) : Meets x Q' R' := by
  cases x with
  | ok a => exact hQ a h
  | error f => exact hR f h

/-- Two computations in a row meet what the second one meets. -/
private theorem Meets.bind {x : Except Fault α} {k : α → Except Fault β} (hx : Meets x Q R)
    (hk : ∀ a, Q a → Meets (k a) S R) : Meets (x >>= k) S R := by
  cases x with
  | ok a => exact hk a hx
  | error f => exact hx

/-- What is computed element by element has as many elements. -/
theorem meets_mapM {f : α → Except Fault β} {as : List α}
    (hf : ∀ a ∈ as, Meets (f a) (fun _ => True) R) :
    Meets (as.mapM f) (fun bs => bs.length = as.length) R := by
  induction as with
  | nil => exact meets_ok rfl
  | cons a as ih =>
    obtain ⟨ha, has⟩ := List.forall_mem_cons.mp hf
    rw [List.mapM_cons]
    refine ha.bind fun b _ => (ih has).bind fun bs hbs => ?_
    change (b :: bs).length = (a :: as).length
    rw [List.length_cons, List.length_cons, hbs]

/-- Folding a list fails only as its steps do. -/
private theorem meets_foldlM {f : β → α → Except Fault β} {as : List α} {b : β}
    (hf : ∀ b a, Meets (f b a) (fun _ => True) R) : Meets (as.foldlM f b) (fun _ => True) R := by
  induction as generalizing b with
  | nil => exact meets_ok trivial
  | cons a as ih => exact (hf b a).bind fun _ _ => ih

end Computations

namespace Value

/-- A number, or a list as long as one of the arguments. -/
def FitsArgs (vs : List (Option Value)) : Value → Prop
  | number _ => True
  | list zs => ∃ as, some (list as) ∈ vs ∧ zs.length = as.length
  | string _ => False

/-- There is a value, and it fits. -/
def Fitting (vs : List (Option Value)) (v : Option Value) : Prop := ∃ x, v = some x ∧ x.FitsArgs vs

/-- What fits some of the arguments fits all of them. -/
private theorem FitsArgs.mono {vs ws : List (Option Value)} (hsub : vs ⊆ ws) {x : Value}
    (h : x.FitsArgs vs) : x.FitsArgs ws := by
  cases x with
  | number z => trivial
  | list zs =>
    obtain ⟨as, has, hlength⟩ := h
    exact ⟨as, hsub has, hlength⟩
  | string s => exact h

variable {R : Fault → Prop}

/-- Two values are combined place by place. -/
theorem meets_broadcast (hR : ∀ f : Fault, f.Refusal → R f)
    {f : Number → Number → Except Fault Number} (hf : ∀ a b, Meets (f a b) (fun _ => True) R)
    (v w : Value) : Meets (broadcast f v w) (FitsArgs [some v, some w]) R := by
  unfold broadcast
  split
  · exact (hf _ _).bind fun _ _ => meets_ok trivial
  · next a bs =>
    refine (meets_mapM fun b _ => hf a b).bind fun zs hzs => ?_
    exact meets_ok ⟨bs, by simp, hzs⟩
  · next as b =>
    refine (meets_mapM fun a _ => hf a b).bind fun zs hzs => ?_
    exact meets_ok ⟨as, by simp, hzs⟩
  · next as bs =>
    split
    · next hlength =>
      refine (meets_mapM fun p _ => hf p.1 p.2).bind fun zs hzs => ?_
      rw [List.length_zip, ← hlength, Nat.min_self] at hzs
      exact meets_ok ⟨as, by simp, hzs⟩
    · exact meets_error (hR _ (.inl rfl))
  · exact meets_error (hR _ (.inl rfl))
  · exact meets_error (hR _ (.inl rfl))

/-- Going through the numbers of a value gives what fits it, or the fault of a number or of the
kind. -/
theorem meets_mapNumbers (hR : ∀ f : Fault, f.Refusal → R f) {f : Number → Except Fault Number}
    (hf : ∀ z, Meets (f z) (fun _ => True) R) (v : Value) :
    Meets (mapNumbers f v) (FitsArgs [some v]) R := by
  cases v with
  | number z => exact (hf z).bind fun _ _ => meets_ok trivial
  | list zs =>
    refine (meets_mapM fun z _ => hf z).bind fun zs' hzs => ?_
    exact meets_ok ⟨zs, by simp, hzs⟩
  | string s => exact meets_error (hR _ (.inl rfl))

private theorem eq_list_of_kindOf {v : Option Value} (h : kindOf v = .list) :
    ∃ zs, v = some (.list zs) := by
  obtain _ | _ | zs | _ := v
  · cases h
  · cases h
  · exact ⟨zs, rfl⟩
  · cases h

private theorem eq_number_of_kindOf {v : Option Value} (h : kindOf v = .number) :
    ∃ z, v = some (.number z) := by
  obtain _ | z | _ | _ := v
  · cases h
  · exact ⟨z, rfl⟩
  · cases h
  · cases h

/-- What has a numeric kind is there. -/
theorem exists_of_kindOf {v : Option Value} (h : kindOf v ∈ [Kind.number, .list]) :
    ∃ x, v = some x := by
  cases v with
  | none => simp [kindOf] at h
  | some x => exact ⟨x, rfl⟩

end Value

namespace Command

open Value

/-- Kinds that are not accepted are a fault of the argument. -/
private theorem meets_checkKinds (accepts : List (List Kind)) (vs : List (Option Value)) :
    Meets (checkKinds accepts vs) (fun _ => True) fun f => f.reason = .argument := by
  fun_induction checkKinds accepts vs with
  | case1 | case2 => exact meets_ok trivial
  | case3 kinds more v vs hkind ih => exact ih
  | case4 => exact meets_error rfl

/-- What passes the check of its kind has it. -/
theorem kind_of_checkKinds {kinds : List Kind} {more : List (List Kind)} {v : Option Value}
    {vs : List (Option Value)} (h : checkKinds (kinds :: more) (v :: vs) = .ok ()) :
    kindOf v ∈ kinds ∧ checkKinds (if more.isEmpty then [kinds] else more) vs = .ok () := by
  unfold checkKinds at h
  split at h
  · next hkind => exact ⟨List.contains_iff_mem.mp hkind, h⟩
  · cases h

/-- What is not numeric is a fault of the argument. -/
theorem meets_checkNumeric (side : Side) (v : Option Value) :
    Meets (checkNumeric side v) (fun _ => True) fun f => f.reason = .argument := by
  unfold checkNumeric
  split
  · exact meets_ok trivial
  · exact meets_error rfl

/-- A check finds fault with the arguments only. -/
theorem meets_check (c : Command) (name : String) (vs : List (Option Value)) :
    Meets (c.check name vs) (fun _ => True) fun f => f.reason = .argument := by
  unfold check
  split
  · unfold checkValues
    split
    · refine (meets_checkNumeric ..).bind fun _ _ => (meets_checkNumeric ..).bind fun _ _ => ?_
      split
      · split
        · exact meets_ok trivial
        · exact meets_error rfl
      · exact meets_ok trivial
    · exact meets_checkNumeric ..
    · exact meets_checkKinds ..
    · split
      · exact meets_error rfl
      · exact meets_ok trivial
    · exact meets_ok trivial
  · exact meets_error rfl

/-- A check passes exactly if the number of arguments and each of them is accepted. -/
theorem check_eq_ok_iff {c : Command} {name : String} {vs : List (Option Value)} :
    c.check name vs = .ok () ↔ c.takes vs.length = true ∧ c.checkValues vs = .ok () := by
  unfold check
  split
  · next htakes => exact ⟨fun h => ⟨htakes, h⟩, fun h => h.2⟩
  · next htakes => exact ⟨nofun, fun h => absurd h.1 htakes⟩

/-- The function takes this number of arguments and accepts their kinds. -/
structure Accepts (least most : Int) (accepts : List (List Kind)) (vs : List (Option Value)) :
    Prop where
  least : least ≤ vs.length
  most : vs.length ≤ most
  kinds : checkKinds accepts vs = .ok ()

/-- Arguments that pass the check of a function are accepted by it. -/
theorem accepts_of_check {least most : Int} {accepts : List (List Kind)}
    {fn : List (Option Value) → Except Fault (Option Value)} {name : String}
    {vs : List (Option Value)} (h : (function least most accepts fn).check name vs = .ok ()) :
    Accepts least most accepts vs := by
  obtain ⟨htakes, hkinds⟩ := check_eq_ok_iff.mp h
  have hbounds : least ≤ vs.length ∧ (vs.length : Int) ≤ most := by simpa [takes] using htakes
  exact ⟨hbounds.1, hbounds.2, hkinds⟩

/-- One argument that has to be a list is a list. -/
private theorem Accepts.exists_list {vs : List (Option Value)} (h : Accepts 1 1 [[.list]] vs) :
    ∃ zs, vs = [some (.list zs)] := by
  obtain ⟨hleast, hmost, hkinds⟩ := h
  obtain ⟨v, rfl⟩ := List.length_eq_one_iff.mp (show vs.length = 1 by omega)
  obtain ⟨zs, rfl⟩ := eq_list_of_kindOf (List.mem_singleton.mp (kind_of_checkKinds hkinds).1)
  exact ⟨zs, rfl⟩

/-- One argument or two, of which the first is numeric, and the second as the second entry says. -/
theorem Accepts.one_or_two {more : List (List Kind)} {vs : List (Option Value)}
    (h : Accepts 1 2 ([.number, .list] :: more) vs) :
    ∃ v, vs = [some v] ∨ ∃ w, vs = [some v, w] ∧
      checkKinds (if more.isEmpty then [[.number, .list]] else more) [w] = .ok () := by
  obtain ⟨hleast, hmost, hkinds⟩ := h
  match vs with
  | [] => simp at hleast
  | v :: vs =>
    obtain ⟨hkind, hrest⟩ := kind_of_checkKinds hkinds
    obtain ⟨v, rfl⟩ := exists_of_kindOf hkind
    match vs with
    | [] => exact ⟨v, .inl rfl⟩
    | [w] => exact ⟨v, .inr ⟨w, rfl, hrest⟩⟩
    | _ :: _ :: vs =>
      simp only [List.length_cons] at hmost
      omega

/-- On any arguments, checked or not, the command computes what fits them or refuses them. A
function may also give up, but on arguments only that it does not accept. -/
def Careful : Command → Prop
  | binary _ fn => ∀ v w, Meets (fn v w) (FitsArgs [some v, some w]) Fault.Refusal
  | unary _ fn => ∀ z, Meets (fn z) (fun _ => True) Fault.Refusal
  | function least most accepts fn => ∀ vs, Meets (fn vs) (Fitting vs) fun f =>
      f.Refusal ∨ f = .unchecked ∧ ¬ Accepts least most accepts vs
  | display => True

end Command

/-- An operator on numbers gives a number or refuses them. -/
private theorem BinaryOp.meets_onNumbers (op : BinaryOp) (a b : Number) :
    Meets (op.onNumbers a b) (fun _ => True) Fault.Refusal := by
  have horder (test : Float → Float → Bool) :
      Meets (Number.order test a b) (fun _ => True) Fault.Refusal := by
    unfold Number.order
    split
    · exact meets_ok trivial
    · exact meets_error (.inr rfl)
  cases op with
  | divide =>
    rw [onNumbers, Number.divide]
    split
    · exact meets_error (.inr rfl)
    · exact meets_ok trivial
  | power =>
    rw [onNumbers, Number.power]
    split
    · split
      · exact meets_error (.inr rfl)
      · exact meets_ok trivial
    · split
      · split <;> exact meets_ok trivial
      · exact meets_ok trivial
  | less | greater | lessEqual | greaterEqual =>
    rw [onNumbers]
    exact horder _
  | _ => exact meets_ok trivial

namespace Builtin

open Command Value

private theorem meets_factorial (z : Number) :
    Meets (factorial z) (fun _ => True) Fault.Refusal := by
  unfold factorial
  simp only
  split
  · exact meets_ok trivial
  · exact meets_error (.inr rfl)

private theorem meets_tangent (z : Number) : Meets (tangent z) (fun _ => True) Fault.Refusal := by
  unfold tangent
  split
  · split
    · exact meets_error (.inr rfl)
    · exact meets_ok trivial
  · exact meets_ok trivial

private theorem meets_logarithm (r : Float → Float) (c : Number → Number) (z : Number) :
    Meets (logarithm r c z) (fun _ => True) Fault.Refusal := by
  unfold logarithm
  split
  · exact meets_error (.inr rfl)
  · split <;> exact meets_ok trivial

/-- Every function of one number has a value or refuses the number; those without a lemma of their
own are total. -/
theorem meets_unaryFunctions :
    ∀ entry ∈ unaryFunctions, ∀ z, Meets (entry.2 z) (fun _ => True) Fault.Refusal := by
  have hinverse (z : Number) : Meets (inverse z) (fun _ => True) Fault.Refusal :=
    BinaryOp.meets_onNumbers .divide .one z
  simp only [unaryFunctions, List.forall_mem_cons]
  refine ⟨fun z => ?_, fun z => ?_, hinverse, meets_factorial, fun z => ?_, fun z => ?_, fun z => ?_,
    fun z => ?_, meets_tangent, fun z => ?_, fun z => ?_, fun z => ?_, meets_logarithm _ _,
    meets_logarithm _ _, fun z => ?_, fun z => ?_, fun z => ?_, fun z => ?_, fun z => ?_,
    fun z => ?_, fun z => ?_, fun z => ?_, fun z => ?_, by simp⟩ <;> exact meets_ok trivial

private theorem meets_pick (name : String) (better : Float → Float → Bool) (a b : Number) :
    Meets (pick name better a b) (fun _ => True) Fault.Refusal := by
  unfold pick
  split
  · exact meets_ok trivial
  · exact meets_error (.inr rfl)

private theorem meets_places (z : Number) : Meets (places z) (fun _ => True) Fault.Refusal := by
  unfold places
  split
  · exact meets_ok trivial
  · exact meets_error (.inr rfl)

/-- A function of one list gives up on anything else. -/
theorem careful_of_list {g : List (Option Value) → Except Fault (Option Value)}
    {fn : List Number → Number} (hlist : ∀ zs, g [some (.list zs)] = .ok (some (.number (fn zs))))
    (hother : ∀ vs, (∀ zs, vs ≠ [some (.list zs)]) → g vs = .error .unchecked) :
    (Command.function 1 1 [[.list]] g).Careful := by
  intro vs
  by_cases h : ∃ zs, vs = [some (.list zs)]
  · obtain ⟨zs, rfl⟩ := h
    rw [hlist]
    exact meets_ok ⟨_, rfl, trivial⟩
  · rw [hother vs fun zs hzs => h ⟨zs, hzs⟩]
    exact meets_error (.inr ⟨rfl, fun haccepts => h haccepts.exists_list⟩)

private theorem careful_dim : (Command.function 1 1 [[.list]] dim).Careful := by
  refine careful_of_list (fun zs => rfl) fun vs hvs => ?_
  unfold dim
  split
  · next zs => exact absurd rfl (hvs zs)
  · rfl

/-- Sums and products of a list are careful. -/
private theorem careful_fold (f : Number → Number → Number) (start : Number) :
    (Command.function 1 1 [[.list]] (fold f start)).Careful := by
  refine careful_of_list (fun zs => rfl) fun vs hvs => ?_
  unfold fold
  split
  · next zs => exact absurd rfl (hvs zs)
  · rfl

/-- A least or greatest element is looked for with care. -/
private theorem careful_extremum (name : String) (better : Float → Float → Bool) :
    (Command.function 1 2 [[.number, .list]] (extremum name better)).Careful := by
  intro vs
  have hrefusal (f : Fault) (h : f.Refusal) :
      f.Refusal ∨ f = .unchecked ∧ ¬ Accepts 1 2 [[.number, .list]] vs := .inl h
  unfold extremum
  split
  · next a b =>
    have hvalue := meets_broadcast (fun _ h => h) (meets_pick name better) a b
    exact (hvalue.mono (fun _ h => h) hrefusal).bind fun x hx => meets_ok ⟨x, rfl, hx⟩
  · exact meets_error (.inl (.inl rfl))
  · next z zs =>
    have hnumber : Meets (zs.foldlM (pick name better) z) (fun _ => True) Fault.Refusal :=
      meets_foldlM (meets_pick name better)
    exact (hnumber.mono (fun _ h => h) hrefusal).bind fun x _ => meets_ok ⟨_, rfl, trivial⟩
  · exact meets_error (.inl (.inl rfl))
  · next vs htwo _ _ hone =>
    refine meets_error (.inr ⟨rfl, fun haccepts => ?_⟩)
    obtain ⟨v, rfl | ⟨w, rfl, hkinds⟩⟩ := haccepts.one_or_two
    · exact hone v rfl
    · obtain ⟨w, rfl⟩ := exists_of_kindOf (kind_of_checkKinds hkinds).1
      exact htwo v w rfl

/-- Rounding is careful with its optional argument too. -/
private theorem careful_round :
    (Command.function 1 2 [[.number, .list], [.number]] round).Careful := by
  intro vs
  have hrefusal (f : Fault) (h : f.Refusal) :
      f.Refusal ∨ f = .unchecked ∧ ¬ Accepts 1 2 [[.number, .list], [.number]] vs := .inl h
  have hrounds (n : Nat) (v : Value) :
      Meets (v.mapNumbers (partwise (roundPlaces n))) (FitsArgs [some v]) Fault.Refusal :=
    meets_mapNumbers (fun _ h => h) (fun _ => meets_ok trivial) v
  unfold round
  split
  · next v =>
    exact ((hrounds _ v).mono (fun _ h => h) hrefusal).bind fun x hx => meets_ok ⟨x, rfl, hx⟩
  · next v z =>
    refine ((meets_places z).mono (fun _ h => h) hrefusal).bind fun n _ => ?_
    refine ((hrounds n v).mono (fun _ h => h) hrefusal).bind fun x hx => meets_ok ⟨x, rfl, ?_⟩
    exact FitsArgs.mono (by simp) hx
  · next vs hone htwo =>
    refine meets_error (.inr ⟨rfl, fun haccepts => ?_⟩)
    obtain ⟨v, rfl | ⟨w, rfl, hkinds⟩⟩ := haccepts.one_or_two
    · exact hone v rfl
    · obtain ⟨z, rfl⟩ :=
        eq_number_of_kindOf (List.mem_singleton.mp (kind_of_checkKinds hkinds).1)
      exact htwo v z rfl

private theorem careful_functions : ∀ entry ∈ functions, entry.2.Careful := by
  simp only [functions, List.forall_mem_cons]
  exact ⟨careful_dim, careful_fold _ _, careful_fold _ _, careful_extremum _ _,
    careful_extremum _ _, careful_round, by simp⟩

/-- Every built-in command is careful. -/
theorem careful_commands : ∀ entry ∈ commands, entry.2.Careful := by
  simp only [commands, List.forall_mem_append, List.forall_mem_map]
  refine ⟨⟨⟨fun op _ v w => ?_, meets_unaryFunctions⟩, careful_functions⟩, by simp [Careful]⟩
  exact meets_broadcast (fun _ h => h) op.meets_onNumbers v w

end Builtin

end Handheld
