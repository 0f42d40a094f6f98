import Handheld.Proofs.Contract
import Handheld.Proofs.Refusal

/-!
# The built-in commands

Every operator and function of the language is registered under its own name. Applied to values of
at most the greatest length, a built-in command gives such a value again, or nothing in the case of
`Disp`, and it fails for reasons of the language only: what it is executed on has passed its check.
-/

namespace Handheld

/-- The list has at most as many elements as a list can hold; other values are short. -/
def Value.Short : Value → Prop
  | list zs => zs.length ≤ maxListLength
  | number _ | string _ => True

/-- There is a value, and it is short. -/
def Value.Held (v : Option Value) : Prop := ∃ x, v = some x ∧ x.Short

/-- The fault is one that a user is told of. -/
def Fault.OfLanguage (f : Fault) : Prop := f.reason ∈ Reason.language

section Computations

variable {α : Type} {Q : α → Prop}

/-- The results of the computation satisfy `Q`, and its faults are plain. -/
def Gives (x : Except Fault α) (Q : α → Prop) : Prop :=
  match x with
  | .ok a => Q a
  | .error f => f.Plain

/-- A plain fault is given by failing with it. -/
theorem gives_error {f : Fault} (h : f.Plain) :
    Gives (.error f : Except Fault α) Q := h

/-- Refusals are plain. -/
theorem Fault.Refusal.plain {f : Fault} (h : f.Refusal) : f.Plain := by
  refine ⟨?_, ?_⟩
  · rcases h with h | h <;> simp [h, Reason.language]
  · rintro limit rfl
    rcases h with h | h <;> cases h

private theorem gives_iff_meets {x : Except Fault α} : Gives x Q ↔ Meets x Q Fault.Plain := Iff.rfl

/-- A computation inside an action. -/
theorem Gives.keeps {x : Except Fault α} {I : World → Prop} (h : Gives x Q) :
    (Action.ofExcept x).Keeps I Q Fault.Plain := by
  refine Action.keeps_ofExcept (fun a ha => ?_) fun f hf => ?_
  · rwa [ha] at h
  · rwa [hf] at h

end Computations

/-- What fits short values is short. -/
theorem Value.FitsArgs.short {vs : List (Option Value)} (hvs : ∀ v ∈ vs, Held v) {x : Value}
    (h : x.FitsArgs vs) : x.Short := by
  cases x with
  | number z => trivial
  | list zs =>
    obtain ⟨as, has, hlength⟩ := h
    obtain ⟨v, hv, hshort⟩ := hvs _ has
    cases hv
    exact Nat.le_trans (Nat.le_of_eq hlength) hshort
  | string s => trivial

namespace Command

open Value

/-- The command is safe to run on short values, once it has checked them. -/
def Sound : Command → Prop
  | binary _ fn => ∀ v w, v.Short → w.Short → Gives (fn v w) Short
  | unary _ fn => ∀ z, Gives (fn z) fun _ => True
  | function least most accepts fn => ∀ vs : List (Option Value), least ≤ vs.length →
      vs.length ≤ most → checkKinds accepts vs = .ok () → (∀ v ∈ vs, Held v) → Gives (fn vs) Held
  | display => True

variable {I : World → Prop}

/-- A sound command gives a short value or nothing, and its faults are plain. -/
theorem Sound.keeps_execute {c : Command} (hc : c.Sound) (hI : World.Lasting I) {name : String}
    {vs : List (Option Value)} (hvs : ∀ v ∈ vs, Held v) (hcheck : c.check name vs = .ok ()) :
    (c.execute vs).Keeps I (fun v => v.isSome → Held v) Fault.Plain := by
  have htakes : c.takes vs.length = true := (check_eq_ok_iff.mp hcheck).1
  cases c with
  | binary symbol fn =>
    obtain ⟨l, r, rfl⟩ := List.length_eq_two.mp (beq_iff_eq.mp htakes)
    obtain ⟨hl, hr⟩ := List.forall_mem_cons.mp hvs
    obtain ⟨v, rfl, hv⟩ := hl
    obtain ⟨w, rfl, hw⟩ := hr r (by simp)
    refine (hc v w hv hw).keeps.bind fun x hx => ?_
    exact (Action.keeps_record hI _).bind fun _ _ => Action.keeps_pure fun _ => ⟨x, rfl, hx⟩
  | unary symbol fn =>
    obtain ⟨v, rfl⟩ := List.length_eq_one_iff.mp (beq_iff_eq.mp htakes)
    obtain ⟨v, rfl, hv⟩ := hvs v (by simp)
    have hmap : Gives (v.mapNumbers fn) (FitsArgs [some v]) :=
      gives_iff_meets.mpr (meets_mapNumbers (fun _ h => h.plain) hc v)
    refine hmap.keeps.bind fun x hx => (Action.keeps_record hI _).bind fun _ _ => ?_
    exact Action.keeps_pure fun _ => ⟨x, rfl, FitsArgs.short hvs hx⟩
  | function least most accepts fn =>
    obtain ⟨hleast, hmost, hkinds⟩ := accepts_of_check hcheck
    exact (hc vs hleast hmost hkinds hvs).keeps.mono (fun _ h _ => h) fun _ h => h
  | display =>
    have hpresent : none ∉ vs := fun hnone => by
      obtain ⟨x, hx, -⟩ := hvs none hnone
      cases hx
    have hdisplay : (displayAll vs).Keeps I (fun _ => True) Fault.Plain :=
      keeps_displayAll hI (fun hnone => absurd hnone hpresent) fun shown cause => by
        simp [Fault.Plain, Fault.reason, Reason.language]
    exact hdisplay.bind fun _ _ => Action.keeps_pure fun h => by cases h

/-- A sound command that is run on short values keeps what lasts, and gives a short value if any. -/
theorem Sound.keeps_run {c : Command} (hc : c.Sound) (hI : World.Lasting I) (name : String)
    {vs : List (Option Value)} (hvs : ∀ v ∈ vs, Held v) :
    (c.run name vs).Keeps I (fun v => v.isSome → Held v) Fault.Plain := by
  unfold run
  split
  · next f hf =>
    have hfault := meets_check c name vs
    rw [hf] at hfault
    have hplain : f.Plain := Fault.Refusal.plain (.inl hfault)
    exact (Action.keeps_record hI _).bind fun _ _ => Action.keeps_throw hplain
  · next hcheck => exact hc.keeps_execute hI hvs hcheck

/-- A careful command is sound: what it computes fits its arguments. -/
theorem Careful.sound {c : Command} (hc : c.Careful) : c.Sound := by
  cases c with
  | binary symbol fn =>
    intro v w hv hw
    have hvs : ∀ x ∈ [some v, some w], Held x := by simp [Held, hv, hw]
    exact gives_iff_meets.mpr ((hc v w).mono (fun x hx => FitsArgs.short hvs hx) fun _ h => h.plain)
  | unary symbol fn =>
    exact fun z => gives_iff_meets.mpr ((hc z).mono (fun _ h => h) fun _ h => h.plain)
  | function least most accepts fn =>
    intro vs hleast hmost hkinds hvs
    refine gives_iff_meets.mpr ((hc vs).mono ?_ fun f hf => ?_)
    · rintro v ⟨x, rfl, hx⟩
      exact ⟨x, rfl, FitsArgs.short hvs hx⟩
    · rcases hf with hf | ⟨-, hf⟩
      · exact hf.plain
      · exact absurd ⟨hleast, hmost, hkinds⟩ hf
  | display => trivial

end Command

namespace Builtin

open Command Value

/-- Every built-in command is sound. -/
private theorem sound_commands : ∀ entry ∈ commands, entry.2.Sound :=
  fun entry hentry => (careful_commands entry hentry).sound

/-- A name under which a command is registered. -/
def Known (name : String) : Prop := name ∈ commands.map (·.1)

instance : DecidablePred Known := fun name => inferInstanceAs (Decidable (name ∈ commands.map _))

/-- A command of the table is registered under its name. -/
theorem getElem?_of_mem {name : String} {c : Command} (h : (name, c) ∈ commands) :
    registry[name]? = some c := by
  have hnames : (commands.map (·.1)).Pairwise fun a b => ¬ compare a b = .eq := by decide +kernel
  exact Std.TreeMap.getElem?_ofList_of_mem (by simp) (List.pairwise_map.mp hnames) h

/-- A known name is that of a command in the table. -/
theorem exists_command {name : String} (h : Known name) :
    ∃ c, (name, c) ∈ commands ∧ registry[name]? = some c := by
  obtain ⟨⟨name, c⟩, hmem, rfl⟩ := List.mem_map.mp h
  exact ⟨c, hmem, getElem?_of_mem hmem⟩

/-- Nothing is registered under any other name. -/
theorem getElem?_of_not_known {name : String} (h : ¬ Known name) : registry[name]? = none := by
  refine Std.TreeMap.getElem?_ofList_of_contains_eq_false ?_
  simpa [Known] using h

/-- What is registered is in the table, under its name. -/
theorem getElem?_eq_some_iff {name : String} {c : Command} :
    registry[name]? = some c ↔ (name, c) ∈ commands := by
  constructor
  · intro h
    by_cases hname : Known name
    · obtain ⟨c', hmem, hc'⟩ := exists_command hname
      rw [h] at hc'
      cases hc'
      exact hmem
    · rw [getElem?_of_not_known hname] at h
      cases h
  · exact getElem?_of_mem

/-- The operators of one operand are registered. -/
theorem known_unary (op : UnaryOp) : Known op.symbol := by
  cases op <;> decide +kernel

/-- The operators of two operands are registered. -/
theorem known_binary (op : BinaryOp) : Known op.symbol := by
  cases op <;> decide +kernel

/-- The functions that can be called are registered. -/
theorem known_function {name : String} (h : name ∈ Symbol.functionNames) : Known name := by
  have hall : ∀ name ∈ Symbol.functionNames, Known name := by decide +kernel
  exact hall name h

theorem known_display : Known displayName := by decide +kernel

/-- A built-in command gives a short value or nothing. -/
theorem keeps_run {I : World → Prop} (hI : World.Lasting I) {name : String} (hname : Known name)
    {vs : List (Option Value)} (hvs : ∀ v ∈ vs, Held v) :
    (registry.run name vs).Keeps I (fun v => v.isSome → Held v) Fault.Plain := by
  obtain ⟨c, hmem, hc⟩ := exists_command hname
  unfold Registry.run
  rw [hc]
  exact (sound_commands _ hmem).keeps_run hI name hvs

end Builtin

end Handheld
