import Handheld.Proofs.Pointwise
import Mathlib.Data.Set.List

/-!
# How commands come out

A command that is run by its name, on arguments of any number and kind, missing ones included, comes
out in one of five ways. The name is unknown; the arguments are refused; a value is computed, which
is a number or a list as long as one of the arguments; or, in the case of `Disp`, all arguments are
printed, or those before one that the console does not take. Nothing else happens, so no command
ever meets arguments that its check should have kept from it.
-/

namespace Handheld

/-- The console takes these lines, one after the other. -/
inductive Console.Prints : Console → List String → Console → Prop
  | nil (c : Console) : Prints c [] c
  | cons {c c' c'' : Console} {line : String} {lines : List String}
      (h : c.print line = (none, c')) (hs : Prints c' lines c'') : Prints c (line :: lines) c''

namespace Builtin

open Command Value

/-- The ways in which a command that is run in a scene can come out. -/
inductive Answers (name : String) (vs : List (Option Value)) (s : Scene) :
    Ending (Option Value) → Prop
  /-- There is no such command. -/
  | unknown (h : registry[name]? = none) : Answers name vs s (.error (.commandNotFound name) s)
  /-- The arguments are wrong, or the command is undefined there. -/
  | refused {c : Command} {f : Fault} (h : registry[name]? = some c) (hf : f.Refusal) :
      Answers name vs s (.error f s)
  /-- There is a value. -/
  | computed {c : Command} {v : Value} (h : registry[name]? = some c) (hname : name ≠ displayName)
      (hv : v.FitsArgs vs) : Answers name vs s (.ok (some v) s)
  /-- All arguments are printed. -/
  | displayed {shown : List Value} {c : Console} (hname : name = displayName)
      (hvs : vs = shown.map some) (h : s.console.Prints (shown.map text) c) :
      Answers name vs s (.ok none { s with console := c })
  /-- The console takes an argument no more. -/
  | jammed {shown rest : List Value} {v : Value} {c c' : Console} {cause : String}
      (hname : name = displayName) (hvs : vs = (shown ++ v :: rest).map some)
      (h : s.console.Prints (shown.map text) c) (hjam : c.print v.text = (some cause, c')) :
      Answers name vs s (.error (.displayFailed v.text cause) { s with console := c' })

/-- Each fault has its reason. -/
theorem Answers.reason {name : String} {vs : List (Option Value)} {s s' : Scene} {f : Fault}
    (h : Answers name vs s (.error f s')) :
    f.reason = .commandNotFound ∧ registry[name]? = none ∨ f.Refusal ∨
      f.reason = .system ∧ name = displayName := by
  cases h with
  | unknown h => exact Or.inl ⟨rfl, h⟩
  | refused h hf => exact Or.inr (Or.inl hf)
  | jammed hname => exact Or.inr (Or.inr ⟨rfl, hname⟩)

end Builtin

namespace Command

open Value

/-- Values are printed up to the first one that the console does not take. -/
theorem displayAll_cases (vs : List Value) (w : World) :
    (∃ c, w.console.Prints (vs.map text) c ∧
      displayAll (vs.map some) w = .ok () { w with console := c }) ∨
    ∃ shown v rest c c' cause, vs = shown ++ v :: rest ∧ w.console.Prints (shown.map text) c ∧
      c.print v.text = (some cause, c') ∧
      displayAll (vs.map some) w = .error (.displayFailed v.text cause) { w with console := c' } := by
  induction vs generalizing w with
  | nil => exact Or.inl ⟨w.console, .nil _, rfl⟩
  | cons v vs ih =>
    have hdisplay : displayAll ((v :: vs).map some) w =
        EStateM.bind (Action.print v.text (.displayFailed v.text))
          (fun _ => displayAll (vs.map some)) w := rfl
    rw [hdisplay, EStateM.bind, Action.print]
    rcases hprint : w.console.print v.text with ⟨_ | cause, c⟩
    · obtain ⟨c', hc', hall⟩ | ⟨shown, x, rest, c', c'', cause, rfl, hc', hjam, hall⟩ :=
        ih { w with console := c }
      · exact Or.inl ⟨c', .cons hprint hc', hall⟩
      · exact Or.inr ⟨v :: shown, x, rest, c', c'', cause, rfl, .cons hprint hc', hjam, hall⟩
    · exact Or.inr ⟨[], v, vs, w.console, c, cause, rfl, .nil _, hprint, rfl⟩

/-- An operator that has checked its arguments has two of them. -/
theorem operands_of_check {symbol name : String} {fn : Value → Value → Except Fault Value}
    {vs : List (Option Value)} (h : (binary symbol fn).check name vs = .ok ()) :
    ∃ a b, vs = [some a, some b] := by
  obtain ⟨htakes, hvalues⟩ := check_eq_ok_iff.mp h
  obtain ⟨l, r, rfl⟩ := List.length_eq_two.mp (beq_iff_eq.mp htakes)
  cases l with
  | none => cases hvalues
  | some a =>
    cases r with
    | none => cases a <;> cases hvalues
    | some b => exact ⟨a, b, rfl⟩

/-- A function of a number that has checked its arguments has one. -/
theorem operand_of_check {symbol name : String} {fn : Number → Except Fault Number}
    {vs : List (Option Value)} (h : (unary symbol fn).check name vs = .ok ()) :
    ∃ a, vs = [some a] := by
  obtain ⟨htakes, hvalues⟩ := check_eq_ok_iff.mp h
  obtain ⟨v, rfl⟩ := List.length_eq_one_iff.mp (beq_iff_eq.mp htakes)
  cases v with
  | none => cases hvalues
  | some a => exact ⟨a, rfl⟩

/-- `Disp` that has checked its arguments has all of them. -/
theorem values_of_check {name : String} {vs : List (Option Value)}
    (h : display.check name vs = .ok ()) : ∃ shown : List Value, vs = shown.map some := by
  obtain ⟨-, hvalues⟩ := check_eq_ok_iff.mp h
  have hvalues : (if vs.contains none then Except.error (Fault.mismatch .none .number none)
      else .ok ()) = .ok () := hvalues
  split at hvalues
  · cases hvalues
  · next hmissing =>
    have hrange : vs ∈ Set.range (List.map (some : Value → Option Value)) := by
      rw [Set.range_list_map]
      intro v hv
      cases v with
      | none => exact absurd (List.contains_iff_mem.mpr hv) hmissing
      | some x => exact ⟨x, rfl⟩
    obtain ⟨shown, hshown⟩ := hrange
    exact ⟨shown, hshown.symm⟩

/-- A careful command that has checked its arguments computes what fits them or refuses them, unless
it prints. -/
theorem Careful.seen_execute {c : Command} (hc : c.Careful) (hne : c ≠ display) {name : String}
    {vs : List (Option Value)} (hcheck : c.check name vs = .ok ()) (w : World) :
    ∃ r, Meets r (FitsArgs vs) Fault.Refusal ∧
      Outcome.seen (c.execute vs w) = Ending.ofExcept r w.scene := by
  cases c with
  | binary symbol fn =>
    obtain ⟨a, b, rfl⟩ := operands_of_check hcheck
    exact ⟨fn a b, hc a b, seen_execute_binary symbol fn a b w⟩
  | unary symbol fn =>
    obtain ⟨a, rfl⟩ := operand_of_check hcheck
    exact ⟨a.mapNumbers fn, meets_mapNumbers (fun _ h => h) hc a, seen_execute_unary symbol fn a w⟩
  | function least most accepts fn =>
    have hvalue := hc vs
    have hexecute : (function least most accepts fn).execute vs = Action.ofExcept (fn vs) := rfl
    rw [hexecute]
    cases hfn : fn vs with
    | ok v =>
      rw [hfn] at hvalue
      obtain ⟨x, rfl, hx⟩ := hvalue
      exact ⟨.ok x, hx, rfl⟩
    | error f =>
      rw [hfn] at hvalue
      obtain hf | ⟨-, hf⟩ := hvalue
      · exact ⟨.error f, hf, rfl⟩
      · exact absurd (accepts_of_check hcheck) hf
  | display => exact absurd rfl hne

/-- A command whose check fails does nothing but put that on record. -/
theorem run_of_check_error {c : Command} {name : String} {vs : List (Option Value)} {f : Fault}
    (h : c.check name vs = .error f) (w : World) :
    c.run name vs w = .error f (w.record (.rejected name vs f)) := by
  rw [run, h]
  rfl

end Command

namespace Builtin

open Command Value

/-- `Disp` is the command that prints. -/
theorem getElem?_eq_display_iff {name : String} :
    registry[name]? = some .display ↔ name = displayName := by
  rw [getElem?_eq_some_iff]
  constructor
  · intro h
    obtain ⟨_, -, heq⟩ | ⟨_, -, heq⟩ | ⟨_, _, _, _, heq⟩ | ⟨hname, -⟩ := mem_commands_cases h
    · cases heq
    · cases heq
    · cases heq
    · exact hname
  · rintro rfl
    simp [commands]

/-- A command that has checked its arguments. -/
theorem answers_execute {name : String} {c : Command} (hc : registry[name]? = some c)
    {vs : List (Option Value)} (hcheck : c.check name vs = .ok ()) (w : World) :
    Answers name vs w.scene (Outcome.seen (c.execute vs w)) := by
  by_cases hdisplay : c = .display
  · subst hdisplay
    have hname := getElem?_eq_display_iff.mp hc
    obtain ⟨shown, rfl⟩ := values_of_check hcheck
    have hexecute : Command.display.execute (shown.map some) = do
        displayAll (shown.map some)
        return none := rfl
    rw [hexecute]
    simp only [bind, EStateM.bind]
    obtain ⟨c, hc, hall⟩ | ⟨before, v, rest, c, c', cause, rfl, hc, hjam, hall⟩ :=
      displayAll_cases shown w
    · rw [hall]
      exact .displayed hname rfl hc
    · rw [hall]
      exact .jammed hname rfl hc hjam
  · have hname : name ≠ displayName := fun hname => by
      rw [getElem?_eq_display_iff.mpr hname] at hc
      exact hdisplay (Option.some.inj hc).symm
    have hcareful := careful_commands _ (getElem?_eq_some_iff.mp hc)
    obtain ⟨r, hr, hseen⟩ := Careful.seen_execute hcareful hdisplay hcheck w
    rw [hseen]
    cases r with
    | ok v => exact .computed hc hname hr
    | error f => exact .refused hc hr

/-- Running a command by its name comes out in one of these ways, whatever the arguments: a command
that is known gives a value that fits its arguments, or nothing in the case of `Disp`, or it fails
because it refuses the arguments or the console fails. When the check of the arguments fails,
nothing happens but that this is put on record, and whatever else the command would do plays no
part. -/
theorem run_answers (w : World) (name : String) (vs : List (Option Value)) :
    Answers name vs w.scene (Outcome.seen (registry.run name vs w)) ∧
      (∀ f s, Outcome.seen (registry.run name vs w) = .error f s →
        f.reason = .commandNotFound ∧ registry[name]? = none ∨ f.Refusal ∨
          f.reason = .system ∧ name = displayName) ∧
      ∀ c f, registry[name]? = some c → c.check name vs = .error f →
        f.reason = .argument ∧
          registry.run name vs w = .error f (w.record (.rejected name vs f)) ∧
          ∀ d : Command, d.check name vs = .error f → d.run name vs w = registry.run name vs w := by
  have hrejected {c : Command} {f : Fault} (hc : registry[name]? = some c)
      (hcheck : c.check name vs = .error f) :
      registry.run name vs w = .error f (w.record (.rejected name vs f)) := by
    rw [Registry.run_of_getElem? hc]
    exact run_of_check_error hcheck w
  have hargument {c : Command} {f : Fault} (hcheck : c.check name vs = .error f) :
      f.reason = .argument := by
    have hmeets := meets_check c name vs
    rwa [hcheck] at hmeets
  have hanswers : Answers name vs w.scene (Outcome.seen (registry.run name vs w)) := by
    cases hc : registry[name]? with
    | none =>
      rw [Registry.run, hc]
      exact .unknown hc
    | some c =>
      cases hcheck : c.check name vs with
      | error f =>
        rw [hrejected hc hcheck]
        exact .refused hc (.inl (hargument hcheck))
      | ok _ =>
        rw [Registry.run_of_getElem? hc, Command.run, hcheck]
        exact answers_execute hc hcheck w
  refine ⟨hanswers, fun f s hs => ?_, fun c f hc hcheck => ⟨hargument hcheck, hrejected hc hcheck, ?_⟩⟩
  · rw [hs] at hanswers
    exact hanswers.reason
  · intro d hd
    rw [hrejected hc hcheck]
    exact run_of_check_error hd w

/-- Rounding to a list of places is refused, whatever rounding does. -/
theorem run_answers_round :
    let w := World.new (.stream "") .trace
    let vs := [some (.number .one), some (.list [])]
    let f := Fault.mismatch .none .number (some (.list []))
    registry.run "round" vs w = .error f (w.record (.rejected "round" vs f)) ∧
      f.Refusal ∧
      (Command.function 1 2 [[.number, .list], [.number]] fun _ => .ok none).run "round" vs w =
        registry.run "round" vs w := by
  intro w vs f
  have hround : registry["round"]? =
      some (.function 1 2 [[.number, .list], [.number]] Builtin.round) :=
    getElem?_of_mem (by simp [commands, functions])
  obtain ⟨-, hreason, hcheck⟩ := run_answers w "round" vs
  obtain ⟨hargument, hrun, hbody⟩ := hcheck _ f hround rfl
  refine ⟨hrun, ?_, hbody _ rfl⟩
  have hrefusal := hreason f w.scene (by rw [hrun]; rfl)
  rw [hround] at hrefusal
  simpa [hargument] using hrefusal

end Builtin

end Handheld
