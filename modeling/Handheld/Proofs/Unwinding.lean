import Handheld.Proofs.Calls
import Handheld.Proofs.Commands

/-!
# Unwinding

How a chain of running programs comes apart. `Stop` ends all of them at once, and the end of a
program that was called ends that program only. A fault says that programs call each other too
deeply exactly if a program is started while as many are running as can be, unless a command makes
up such a fault; no built-in command does. The programs need not be told how many are running: one
counter, raised when a program starts and lowered when it ends, comes to the same and is always back
where it was.
-/

namespace Handheld

/-- The fault does not say that programs call each other too deeply. -/
def Fault.Shallow (f : Fault) : Prop := ∀ limit, f ≠ .callDepth limit

section Computations

variable {α β : Type}

/-- No fault of the computation says so. -/
def Shallow (x : Except Fault α) : Prop := ∀ f, x = .error f → f.Shallow

private theorem shallow_ok (a : α) : Shallow (.ok a) := by
  intro f hf
  cases hf

private theorem shallow_error {f : Fault} (h : f.Shallow) :
    Shallow (.error f : Except Fault α) := by
  intro g hg
  cases hg
  exact h

private theorem Shallow.bind {x : Except Fault α} {k : α → Except Fault β} (hx : Shallow x)
    (hk : ∀ a, Shallow (k a)) : Shallow (x >>= k) := by
  intro f hf
  rcases Except.bind_error hf with hf | ⟨a, -, hf⟩
  · exact hx f hf
  · exact hk a f hf

private theorem shallow_iff_meets {x : Except Fault α} :
    Shallow x ↔ Meets x (fun _ => True) Fault.Shallow := by
  cases x with
  | ok a => exact ⟨fun _ => trivial, fun _ => shallow_ok a⟩
  | error f => exact ⟨fun h => h f rfl, shallow_error⟩

/-- A computation that refuses at most does not say so. -/
theorem Meets.shallow {x : Except Fault α} {Q : α → Prop} {R : Fault → Prop} (h : Meets x Q R)
    (hR : ∀ f, R f → f.Shallow) : Shallow x :=
  shallow_iff_meets.mpr (h.mono (fun _ _ => trivial) hR)

end Computations

/-- No store says that programs call each other too deeply. -/
private theorem Memory.shallow_store (m : Memory) (v : Option Value) (t : Target) :
    Shallow (m.store v t) := by
  cases t with
  | var name =>
    change Shallow (m.setNumber name v)
    unfold setNumber
    split
    · exact shallow_error (by simp [Fault.Shallow])
    · split
      · split
        · exact shallow_ok _
        · exact shallow_error (by simp [Fault.Shallow])
      · exact shallow_error (by simp [Fault.Shallow])
  | list name =>
    change Shallow (m.setList name v)
    unfold setList
    split
    · exact shallow_error (by simp [Fault.Shallow])
    · split
      · split
        · exact shallow_error (by simp [Fault.Shallow])
        · exact shallow_ok _
      · exact shallow_error (by simp [Fault.Shallow])

/-- No command of the registry says so. -/
def Registry.Quiet (r : Registry) : Prop :=
  ∀ name vs, (r.run name vs).Keeps (fun _ => True) (fun _ => True) Fault.Shallow

/-- Then no statement but a call says so. -/
theorem Registry.Quiet.shallow_step {r : Registry} (hr : r.Quiet) {p : Place} {program : String}
    {st : Statement} {s s' : Scene} {f : Fault} (hst : p.statements[p.index]? = some st)
    (h : (p.step r program st).onScene s = .error f s') : f.Shallow := by
  have hrules : Place.Rules r (fun _ => True) (fun _ => True) (fun _ => True) Fault.Shallow :=
    { lasting := ⟨fun _ _ _ => trivial, fun _ _ _ _ => trivial⟩
      number := fun _ => trivial
      string := fun _ => trivial
      list := fun _ _ => trivial
      ans := fun _ _ => trivial
      stored := fun _ _ _ _ _ => trivial
      unary := fun _ => trivial
      binary := fun _ => trivial
      run := fun name vs _ _ => (hr name vs).mono (fun _ _ _ => trivial) fun _ h => h
      language := fun _ h => h.2
      display := trivial
      text := fun _ e _ => e.calls_true }
  have hstore (v : Option Value) (t : Target) :
      (Action.store v t).Keeps (fun _ => True) (fun _ => True) Fault.Shallow := by
    intro w _
    unfold Action.store
    cases hrun : w.memory.store v t with
    | ok m => exact ⟨trivial, trivial⟩
    | error f => exact ⟨trivial, w.memory.shallow_store v t f hrun⟩
  have hkeeps := hrules.keeps_step program hst st.instruction.calls_true
    (fun _ _ test _ => test.calls_true) (fun t _ v _ => hstore v t)
    fun _ _ _ _ _ _ _ => ⟨trivial, trivial⟩
  have hscene := hkeeps.onScene (S := fun _ => True) (s := s) trivial
  rw [h] at hscene
  exact hscene.2

private theorem Fault.Refusal.shallow {f : Fault} (h : f.Refusal) : f.Shallow := h.plain.2

private theorem Value.shallow_mapNumbers {f : Number → Except Fault Number}
    (hf : ∀ z, Shallow (f z)) (v : Value) : Shallow (v.mapNumbers f) :=
  (meets_mapNumbers (fun _ h => h.shallow) (fun z => shallow_iff_meets.mp (hf z)) v).shallow
    fun _ h => h

namespace Command

/-- What the command computes does not say so. -/
def Quiet : Command → Prop
  | binary _ fn => ∀ v w, Shallow (fn v w)
  | unary _ fn => ∀ z, Shallow (fn z)
  | function _ _ _ fn => ∀ vs, Shallow (fn vs)
  | display => True

private theorem shallow_operands (l r : Option Value) : Shallow (operands l r) := by
  unfold operands
  split
  · exact shallow_ok _
  · have hnumeric (side : Side) (v : Option Value) : Shallow (checkNumeric side v) :=
      (meets_checkNumeric side v).shallow fun _ h => Fault.Refusal.shallow (.inl h)
    refine (hnumeric .left l).bind fun _ => (hnumeric .right r).bind fun _ => ?_
    exact shallow_error (by simp [Fault.Shallow])

/-- A quiet command that is run does not say so either. -/
private theorem Quiet.keeps_run {c : Command} (hc : c.Quiet) (name : String)
    (vs : List (Option Value)) :
    (c.run name vs).Keeps (fun _ => True) (fun _ => True) Fault.Shallow := by
  have hlasting : World.Lasting fun _ => True := ⟨fun _ _ _ => trivial, fun _ _ _ _ => trivial⟩
  have hexcept {α : Type} {x : Except Fault α} (hx : Shallow x) :
      (Action.ofExcept x).Keeps (fun _ => True) (fun _ => True) Fault.Shallow :=
    Action.keeps_ofExcept (fun _ _ => trivial) hx
  have hunchecked : Fault.Shallow .unchecked := by simp [Fault.Shallow]
  unfold run
  split
  · next f hf =>
    have hcheck : Shallow (c.check name vs) :=
      (meets_check c name vs).shallow fun _ h => Fault.Refusal.shallow (.inl h)
    have hfault : f.Shallow := hcheck f hf
    exact (Action.keeps_record hlasting _).bind fun _ _ => Action.keeps_throw hfault
  · unfold execute
    split
    · refine (hexcept (shallow_operands _ _)).bind fun x _ => ?_
      refine (hexcept (hc x.1 x.2)).bind fun v _ => ?_
      exact (Action.keeps_record hlasting _).bind fun _ _ => Action.keeps_pure trivial
    · refine (hexcept (Value.shallow_mapNumbers hc _)).bind fun v _ => ?_
      exact (Action.keeps_record hlasting _).bind fun _ _ => Action.keeps_pure trivial
    · exact hexcept (hc vs)
    · have hdisplay : (displayAll vs).Keeps (fun _ => True) (fun _ => True) Fault.Shallow :=
        keeps_displayAll hlasting (fun _ => hunchecked) fun shown cause => by simp [Fault.Shallow]
      exact hdisplay.bind fun _ _ => Action.keeps_pure trivial
    · exact Action.keeps_throw hunchecked

/-- A careful command is quiet, even on arguments that it does not accept. -/
theorem Careful.quiet {c : Command} (hc : c.Careful) : c.Quiet := by
  cases c with
  | binary symbol fn => exact fun v w => (hc v w).shallow fun _ h => h.shallow
  | unary symbol fn => exact fun z => (hc z).shallow fun _ h => h.shallow
  | function least most accepts fn =>
    refine fun vs => (hc vs).shallow fun f hf => ?_
    rcases hf with hf | ⟨rfl, -⟩
    · exact hf.shallow
    · simp [Fault.Shallow]
  | display => trivial

end Command

namespace Builtin

/-- No built-in command says that programs call each other too deeply. -/
theorem quiet_registry : registry.Quiet := by
  intro name vs
  unfold Registry.run
  by_cases hname : Known name
  · obtain ⟨c, hmem, hc⟩ := exists_command hname
    rw [hc]
    exact (careful_commands (name, c) hmem).quiet.keeps_run name vs
  · rw [getElem?_of_not_known hname]
    exact Action.keeps_throw (by simp [Fault.Shallow])

end Builtin

/-- Runs a program from the statement with the index `i`, as `runFrom` does, but with one counter of
running programs for all of them: a program that is called raises it, and lowers it when it ends.
Gives the outcome and the counter after it. -/
def runCounting (c : Context) :
    Nat → Nat → Program → Nat → List Frame → World → Option (Outcome Signal × Nat)
  | 0, _, _, _, _, _ => none
  | fuel + 1, count, p, i, frames, w =>
    match p.statements[i]? with
    | none => some (endProgram p frames w, count)
    | some s =>
      let w := w.record (.statement p.name i frames.length s)
      match s.instruction with
      | .call name =>
        match c.programs[name]? with
        | none => some (.error (.undefinedProgram name (some s.position)) w, count)
        | some callee =>
          match startProgram count callee w with
          | .error f w => some (.error f w, count)
          | .ok () w =>
            match runCounting c fuel (count + 1) callee 0 [] w with
            | none => none
            | some (.error f w, count) => some (.error f w, count - 1)
            | some (.ok .stop w, count) => some (.ok .stop w, count - 1)
            | some (.ok _ w, count) => runCounting c fuel (count - 1) p (i + 1) frames w
      | _ =>
        match Place.step ⟨p.statements, i, frames⟩ c.commands p.name s w with
        | .error f w => some (.error f w, count)
        | .ok (.done signal) w => some (.ok signal w, count)
        | .ok (.next i frames) w => runCounting c fuel count p i frames w

/-- Runs a program while the counter of running programs is `count`. -/
def executeCounting (c : Context) (fuel count : Nat) (p : Program) (w : World) :
    Option (Outcome Signal × Nat) :=
  match startProgram count p w with
  | .error f w => some (.error f w, count)
  | .ok () w => (runCounting c fuel (count + 1) p 0 [] w).map fun (out, count) => (out, count - 1)

/-- A run with a counter is the run without, and leaves the counter as it was: a callee has it one
higher than its caller and lowers it at its end. -/
theorem runCounting_eq (c : Context) (fuel count : Nat) (p : Program) (i : Nat)
    (frames : List Frame) (w : World) :
    runCounting c fuel count p i frames w =
      (runFrom c fuel count p i frames w).map fun out => (out, count) := by
  induction fuel generalizing count p i frames w with
  | zero => rfl
  | succ fuel ih =>
    rw [runCounting, runFrom]
    cases hst : p.statements[i]? with
    | none => rfl
    | some st =>
      dsimp only
      generalize w.record (.statement p.name i frames.length st) = w'
      cases hinstruction : st.instruction with
      | call name =>
        dsimp only
        cases c.programs[name]? with
        | none => rfl
        | some callee =>
          dsimp only
          cases startProgram count callee w' with
          | error f v => rfl
          | ok _ v =>
            dsimp only
            rw [ih]
            cases runFrom c fuel (count + 1) callee 0 [] v with
            | none => rfl
            | some out =>
              cases out with
              | error f v' => rfl
              | ok signal v' =>
                cases signal with
                | stop => rfl
                | none => exact ih count p (i + 1) frames v'
                | ret => exact ih count p (i + 1) frames v'
      | _ =>
        dsimp only
        cases Place.step ⟨p.statements, i, frames⟩ c.commands p.name st w' with
        | error f v => rfl
        | ok progress v =>
          cases progress with
          | done signal => rfl
          | next j frames' => exact ih count p j frames' v

/-- However a program ends, the counter is what it was before. -/
theorem executeCounting_eq (c : Context) (fuel count : Nat) (p : Program) (w : World) :
    executeCounting c fuel count p w = (execute c fuel count p w).map fun out => (out, count) := by
  unfold executeCounting execute
  cases startProgram count p w with
  | error f v => rfl
  | ok _ v =>
    dsimp only
    rw [runCounting_eq, Option.map_map]
    rfl

namespace Machine

variable {c : Context} {below : Nat} {p : Program} {s₀ s : Scene}

/-- A run is stopped exactly if some program comes to `Stop`, and nothing has changed since. -/
theorem ends_stop_iff : Ends c below p s₀ (.ok .stop s) ↔
    ∃ n a callers, (enter below p [] s₀).run c below n = running a callers s ∧
      a.instruction? = some .stop := by
  constructor
  · intro h
    obtain ⟨n, hn⟩ := ends_iff_run.mp h
    rcases exists_last_step hn with hstart | ⟨k, a, callers, s', hk, hyields⟩
    · obtain ⟨-, ho⟩ := enter_eq_ended.mp hstart
      cases ho
    · cases hyields with
      | finished h hsignal => exact absurd rfl hsignal
      | stopped hstop => exact ⟨k, a, callers, hk, hstop⟩
  · rintro ⟨n, a, callers, hn, hstop⟩
    exact ends_iff_run.mpr ⟨n + 1, by rw [run_step, hn, step_stop hstop]⟩

/-- In a run of `p`, in the scene `s`, a program is started while `limit` programs are running: `p`
itself, or one that a running program calls. -/
def StartsAt (c : Context) (below : Nat) (p : Program) (s₀ : Scene) (limit : Nat) (s : Scene) :
    Prop :=
  (limit ≤ below ∧ s = s₀) ∨
    ∃ n a callers q, (enter below p [] s₀).run c below n = running a callers s ∧
      a.callee? c = some q ∧ below + (a :: callers).length = limit

/-- A program that is started at the limit ends the run. -/
theorem StartsAt.ends (h : StartsAt c below p s₀ maxCallDepth s) :
    Ends c below p s₀ (.error (.callDepth maxCallDepth) s) := by
  rcases h with ⟨hfull, rfl⟩ | ⟨n, a, callers, q, hn, hq, hlength⟩
  · exact ends_iff_run.mpr ⟨0, enter_eq_ended.mpr ⟨hfull, rfl⟩⟩
  · refine ends_iff_run.mpr ⟨n + 1, ?_⟩
    rw [run_step, hn, step_callee hq]
    exact enter_eq_ended.mpr ⟨Nat.le_of_eq hlength.symm, rfl⟩

/-- Unless a command says so, only a program that is started at the limit makes the run say that
programs call each other too deeply. -/
theorem startsAt_of_ends (hc : c.commands.Quiet) {limit : Nat}
    (h : Ends c below p s₀ (.error (.callDepth limit) s)) :
    limit = maxCallDepth ∧ StartsAt c below p s₀ maxCallDepth s := by
  obtain ⟨n, hn⟩ := ends_iff_run.mp h
  rcases exists_last_step hn with hstart | ⟨k, a, callers, s', hk, hyields⟩
  · obtain ⟨hfull, ho⟩ := enter_eq_ended.mp hstart
    cases ho
    exact ⟨rfl, .inl ⟨hfull, rfl⟩⟩
  · have hlength : below + (a :: callers).length ≤ maxCallDepth := length_running_le hk
    cases hyields with
    | refused hq hfull =>
      exact ⟨rfl, .inr ⟨k, a, callers, _, hk, hq, Nat.le_antisymm hlength hfull⟩⟩
    | failed hst hstep => exact absurd rfl (hc.shallow_step (p := a.place) hst hstep limit)

end Machine

open Machine in
/-- For a run that starts while `below` programs are running, whatever programs call each other:
`Stop` in any of them ends all of them and changes nothing, and only `Stop` ends a run so. A program
that is over, by `Return` or at its end, ends alone: its caller, which has stood still since the
call, goes on behind it with the blocks that it had opened. Starting a program while 255 are running
ends the run with a system fault, and this is the only source of that fault as long as no command
makes one up, which the built-in commands do not. One counter of running programs serves as well as
being told their number, and a run leaves it as it was. -/
theorem execute_unwinds (c : Context) (below : Nat) (p : Program) (s₀ : Scene) :
    let m := enter below p [] s₀
    (∀ n a callers s, m.run c below n = running a callers s → a.instruction? = some .stop →
      m.run c below (n + 1) = ended (.ok .stop s)) ∧
    (∀ s, Ends c below p s₀ (.ok .stop s) ↔
      ∃ n a callers, m.run c below n = running a callers s ∧ a.instruction? = some .stop) ∧
    (∀ n a b callers s, m.run c below n = running a (b :: callers) s → a.Finished →
      m.run c below (n + 1) = running b.next callers s) ∧
    (∀ n a callers s q signal s', m.run c below n = running a callers s → a.callee? c = some q →
      Ends c (below + (a :: callers).length) q s (.ok signal s') → signal ≠ .stop →
      ∃ k, m.run c below (n + 1 + k) = running a.next callers s' ∧
        ∀ j < k, ∃ b inner t, m.run c below (n + 1 + j) = running b (inner ++ a :: callers) t) ∧
    (∀ s, StartsAt c below p s₀ 255 s → Ends c below p s₀ (.error (.callDepth 255) s)) ∧
    (c.commands.Quiet → ∀ limit s, Ends c below p s₀ (.error (.callDepth limit) s) →
      limit = 255 ∧ StartsAt c below p s₀ 255 s) ∧
    Builtin.registry.Quiet ∧ (Fault.callDepth 255).reason = .system ∧
    ∀ fuel w, executeCounting c fuel below p w =
      (execute c fuel below p w).map fun out => (out, below) := by
  intro m
  refine ⟨?_, fun s => ends_stop_iff, ?_, ?_, fun s h => h.ends, fun hc limit s => startsAt_of_ends hc,
    Builtin.quiet_registry, rfl, fun fuel w => executeCounting_eq c fuel below p w⟩
  · intro n a callers s hn hstop
    rw [run_step, hn, step_stop hstop]
  · intro n a b callers s hn hfinished
    obtain ⟨signal, hsignal, hstep⟩ := step_finished hfinished
    rw [run_step, hn, hstep, leave_caller hsignal]
  · intro n a callers s q signal s' hn hq hends hsignal
    obtain ⟨k, hk, hbefore⟩ := run_callee hn hq hends
    exact ⟨k, by rw [hk, leave_caller hsignal], hbefore⟩

open Machine in
/-- `MAIN` opens a loop, calls a program that returns and one that stops; `AGAIN` calls itself. -/
theorem execute_unwinds_main :
    let st (i : Instruction) : Statement := ⟨i, .start⟩
    let back : Program := ⟨"BACK", "", [st .ret]⟩
    let halt : Program := ⟨"HALT", "", [st .stop]⟩
    let again : Program := ⟨"AGAIN", "", [st (.call "AGAIN")]⟩
    let main : Program :=
      ⟨"MAIN", "", [st (.repeatLoop (.var 'A' .start)), st (.call "BACK"), st (.call "HALT")]⟩
    let c : Context := ⟨Builtin.registry, (∅ : Programs).insertMany
      [("BACK", back), ("HALT", halt), ("AGAIN", again)]⟩
    let s : Scene := ⟨.fresh, .new (.stream "")⟩
    let a (i : Nat) : Activation := ⟨main, i, [⟨.repeatLoop (.var 'A' .start), 0⟩]⟩
    (enter 0 main [] s).run c 0 2 = running (.start back) [a 1] s ∧
      (enter 0 main [] s).run c 0 3 = running (a 2) [] s ∧
      (∃ k, (enter 0 main [] s).run c 0 (1 + 1 + k) = running (a 2) [] s ∧ ∀ j < k, ∃ b inner t,
        (enter 0 main [] s).run c 0 (1 + 1 + j) = running b (inner ++ [a 1]) t) ∧
      (enter 0 main [] s).run c 0 4 = running (.start halt) [a 2] s ∧
      (enter 0 main [] s).run c 0 5 = ended (.ok .stop s) ∧ Ends c 0 main s (.ok .stop s) ∧
      Ends c 254 again s (.error (.callDepth 255) s) ∧ StartsAt c 254 again s 255 s := by
  intro st back halt again main c s a
  have hback : (enter 0 main [] s).run c 0 2 = running (.start back) [a 1] s := rfl
  have hhalt : (enter 0 main [] s).run c 0 4 = running (.start halt) [a 2] s := rfl
  have hcallee : Ends c (0 + [a 1].length) back s (.ok .ret s) := ⟨1, rfl⟩
  obtain ⟨hstop, hends, hfinished, hcalled, -, -, -, -, -⟩ := execute_unwinds c 0 main s
  obtain ⟨-, -, -, -, hfull, hfault, -, -, -⟩ := execute_unwinds c 254 again s
  have hagain : Ends c 254 again s (.error (.callDepth 255) s) :=
    hfull s (.inr ⟨0, .start again, [], again, rfl, rfl, rfl⟩)
  exact ⟨hback, hfinished 2 _ _ _ s hback (.inr rfl),
    hcalled 1 (a 1) [] s back .ret s rfl rfl hcallee (by simp), hhalt, hstop 4 _ _ s hhalt rfl,
    (hends s).mpr ⟨4, _, _, hhalt, rfl⟩, hagain, (hfault Builtin.quiet_registry 255 s hagain).2⟩

end Handheld
