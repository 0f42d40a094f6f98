import Handheld.Proofs.Machine
import Handheld.Proofs.Steps

/-!
# Calls and returns

The running programs form a chain in which each one waits for the next. A program that is called
runs as if it were alone, above a chain that stands still; when it is over, its caller goes on
behind the call, with the blocks that it had opened. Only `Stop` and faults take down the whole
chain. The chain is never longer than the limit.
-/

namespace Handheld

namespace Activation

/-- The instruction that the program has come to, unless it has run off its end. -/
def instruction? (a : Activation) : Option Instruction := a.statement?.map (·.instruction)

/-- The program that the next statement calls, if it calls one that exists. -/
def callee? (c : Context) (a : Activation) : Option Program :=
  match a.instruction? with
  | some (.call name) => c.programs[name]?
  | _ => none

/-- The program has come to `Return` or has run off its end. -/
def Finished (a : Activation) : Prop := a.instruction? = none ∨ a.instruction? = some .ret

/-- The next instruction is that of the next statement. -/
theorem instruction?_eq_some {a : Activation} {i : Instruction} :
    a.instruction? = some i ↔ ∃ st, a.statement? = some st ∧ st.instruction = i :=
  Option.map_eq_some_iff

private theorem instruction?_eq_none {a : Activation} :
    a.instruction? = none ↔ a.statement? = none :=
  Option.map_eq_none_iff

/-- The next statement calls a program exactly if it is a call of a name that is known. -/
theorem callee?_eq_some {c : Context} {a : Activation} {p : Program} :
    a.callee? c = some p ↔
      ∃ st name, a.statement? = some st ∧ st.instruction = .call name ∧
        c.programs[name]? = some p := by
  constructor
  · intro h
    unfold callee? at h
    split at h
    · next name hcall =>
      obtain ⟨st, hst, hinstruction⟩ := instruction?_eq_some.mp hcall
      exact ⟨st, name, hst, hinstruction, h⟩
    · cases h
  · rintro ⟨st, name, hst, hinstruction, hname⟩
    have hcall : a.instruction? = some (.call name) := instruction?_eq_some.mpr ⟨st, hst, hinstruction⟩
    simp only [callee?, hcall, hname]

end Activation

namespace Machine

variable {c : Context} {below : Nat} {a : Activation} {callers : List Activation} {s : Scene}

/-- `Stop` ends every running program and changes nothing. -/
theorem step_stop (h : a.instruction? = some .stop) :
    (running a callers s).step c below = ended (.ok .stop s) := by
  obtain ⟨st, hst, hstop⟩ := Activation.instruction?_eq_some.mp h
  have hplace : (a.place.step c.commands a.program.name st).onScene s = .ok (.done .stop) s := by
    unfold Place.step
    rw [hstop]
    rfl
  rw [step_other hst (by simp [hstop]), hplace]
  rfl

/-- A program that is finished ends without `Stop` and changes nothing. -/
theorem step_finished (h : a.Finished) :
    ∃ signal, signal ≠ .stop ∧ (running a callers s).step c below = leave (.ok signal s) callers := by
  rcases h with h | h
  · have hst := Activation.instruction?_eq_none.mp h
    exact ⟨.none, by simp, step_end hst⟩
  · obtain ⟨st, hst, hret⟩ := Activation.instruction?_eq_some.mp h
    have hplace : (a.place.step c.commands a.program.name st).onScene s = .ok (.done .ret) s := by
      unfold Place.step
      rw [hret]
      rfl
    refine ⟨.ret, by simp, ?_⟩
    rw [step_other hst (by simp [hret]), hplace]
    rfl

/-- A program cannot be started exactly if as many are running as can be. -/
theorem enter_eq_ended {p : Program} {o : Ending Signal} :
    enter below p callers s = ended o ↔
      maxCallDepth ≤ below + callers.length ∧ o = .error (.callDepth maxCallDepth) s := by
  unfold enter
  split
  · next hfull => simp [hfull, eq_comm]
  · next hroom => simp [hroom]

/-- A call starts the program that is called, above its caller. -/
theorem step_callee {p : Program} (h : a.callee? c = some p) :
    (running a callers s).step c below = enter below p (a :: callers) s := by
  obtain ⟨st, name, hst, hcall, hname⟩ := Activation.callee?_eq_some.mp h
  exact step_call hst hcall hname

/-- What one statement can make of the program that runs and of those that wait for it. -/
inductive Yields (c : Context) (below : Nat) (a : Activation) (callers : List Activation)
    (s : Scene) : Machine → Prop
  /-- The program goes on. -/
  | onward {i : Nat} {frames : List Frame} {s' : Scene} (h : a.place.Leads (.next i frames)) :
      Yields c below a callers s (running { a with index := i, frames := frames } callers s')
  /-- It waits for a program that it has called. -/
  | called {p : Program} (hp : a.callee? c = some p)
      (hroom : below + (a :: callers).length < maxCallDepth) :
      Yields c below a callers s (running (.start p) (a :: callers) s)
  /-- It is over, and its caller goes on. -/
  | returned {b : Activation} {outer : List Activation} (h : a.Finished)
      (hcallers : callers = b :: outer) : Yields c below a callers s (running b.next outer s)
  /-- It is over, and no program waits for it. -/
  | finished {signal : Signal} (h : a.Finished) (hsignal : signal ≠ .stop) (hcallers : callers = []) :
      Yields c below a callers s (ended (.ok signal s))
  /-- All programs are stopped. -/
  | stopped (h : a.instruction? = some .stop) : Yields c below a callers s (ended (.ok .stop s))
  /-- It calls a program while as many are running as can be. -/
  | refused {p : Program} (hp : a.callee? c = some p)
      (hfull : maxCallDepth ≤ below + (a :: callers).length) :
      Yields c below a callers s (ended (.error (.callDepth maxCallDepth) s))
  /-- It calls a program that does not exist. -/
  | undefined (name : String) (pos : Option Position) :
      Yields c below a callers s (ended (.error (.undefinedProgram name pos) s))
  /-- Its statement fails. -/
  | failed {st : Statement} {f : Fault} {s' : Scene} (hst : a.statement? = some st)
      (h : (a.place.step c.commands a.program.name st).onScene s = .error f s') :
      Yields c below a callers s (ended (.error f s'))

/-- A program that has finished goes back to its caller, or ends the run. -/
private theorem yields_finished (h : a.Finished) :
    Yields c below a callers s ((running a callers s).step c below) := by
  obtain ⟨signal, hsignal, hstep⟩ : ∃ signal, signal ≠ .stop ∧
      (running a callers s).step c below = leave (.ok signal s) callers := step_finished h
  rw [hstep]
  cases callers with
  | nil =>
    rw [leave_nil]
    exact .finished h hsignal rfl
  | cons b outer =>
    rw [leave_caller hsignal]
    exact .returned h rfl

/-- One statement does one of these. -/
theorem step_yields (c : Context) (below : Nat) (a : Activation) (callers : List Activation)
    (s : Scene) : Yields c below a callers s ((running a callers s).step c below) := by
  cases hst : a.statement? with
  | none => exact yields_finished (.inl (Activation.instruction?_eq_none.mpr hst))
  | some st =>
    have hinstruction : a.instruction? = some st.instruction :=
      Activation.instruction?_eq_some.mpr ⟨st, hst, rfl⟩
    by_cases hcall : ∃ name, st.instruction = .call name
    · obtain ⟨name, hcall⟩ := hcall
      cases hname : c.programs[name]? with
      | none =>
        rw [step_undefined hst hcall hname]
        exact .undefined name _
      | some p =>
        have hp : a.callee? c = some p :=
          Activation.callee?_eq_some.mpr ⟨st, name, hst, hcall, hname⟩
        rw [step_call hst hcall hname, enter]
        split
        · next hfull => exact .refused hp hfull
        · next hroom => exact .called hp (Nat.not_le.mp hroom)
    · have hother : (running a callers s).step c below = _ := step_other hst (not_exists.mp hcall)
      cases hplace : (a.place.step c.commands a.program.name st).onScene s with
      | error f s' =>
        rw [hother, hplace]
        exact .failed hst hplace
      | ok progress s' =>
        have hleads : a.place.Leads progress := Place.leads_of_step hst hplace
        cases progress with
        | next i frames =>
          rw [hother, hplace]
          exact .onward hleads
        | done signal =>
          cases hleads with
          | returned h => exact yields_finished (.inr h)
          | stopped h =>
            have hstop : a.instruction? = some .stop := h
            rw [step_stop hstop]
            exact .stopped hstop

/-- The same state above more programs that wait. -/
def under (outer : List Activation) : Machine → Machine
  | running a callers s => running a (callers ++ outer) s
  | ended o => leave o outer

/-- A program goes back to its caller in the same way above more programs that wait. -/
private theorem leave_append (o : Ending Signal) (callers outer : List Activation) :
    leave o (callers ++ outer) = (leave o callers).under outer := by
  cases o with
  | error f s => rfl
  | ok signal s =>
    by_cases hstop : signal = .stop
    · subst hstop
      rfl
    · cases callers with
      | nil => rw [List.nil_append, leave_nil]; rfl
      | cons b callers => rw [List.cons_append, leave_caller hstop, leave_caller hstop]; rfl

/-- A program is entered in the same way above more programs that wait, at a depth that counts
them. -/
theorem enter_append (p : Program) (callers outer : List Activation) (s : Scene) :
    enter below p (callers ++ outer) s = (enter (below + outer.length) p callers s).under outer := by
  have hlength : below + (callers ++ outer).length = below + outer.length + callers.length := by
    rw [List.length_append]
    omega
  unfold enter
  rw [hlength]
  split
  · rfl
  · rfl

/-- One statement does the same above a chain, which counts among the running programs. -/
theorem step_under (outer : List Activation) (a : Activation) (callers : List Activation)
    (s : Scene) :
    ((running a callers s).under outer).step c below =
      ((running a callers s).step c (below + outer.length)).under outer := by
  change (running a (callers ++ outer) s).step c below = _
  cases hst : a.statement? with
  | none => rw [step_end hst, step_end hst, leave_append]
  | some st =>
    by_cases hcall : ∃ name, st.instruction = .call name
    · obtain ⟨name, hcall⟩ := hcall
      cases hname : c.programs[name]? with
      | none =>
        rw [step_undefined hst hcall hname, step_undefined hst hcall hname]
        rfl
      | some p =>
        rw [step_call hst hcall hname, step_call hst hcall hname, ← enter_append]
        rfl
    · have hcall : ∀ name, st.instruction ≠ .call name := not_exists.mp hcall
      rw [step_other hst hcall, step_other hst hcall]
      cases (a.place.step c.commands a.program.name st).onScene s with
      | error f s' => rfl
      | ok progress s' =>
        cases progress with
        | done signal => exact leave_append _ callers outer
        | next i frames => rfl

/-- A run above a chain is the run alone, with the chain below, up to where the run alone ends. -/
theorem run_under (outer : List Activation) {m : Machine} {n : Nat}
    (h : ∀ j < n, (m.run c (below + outer.length) j).activations ≠ []) :
    (m.under outer).run c below n = (m.run c (below + outer.length) n).under outer := by
  induction n with
  | zero => rfl
  | succ n ih =>
    have hn := h n (Nat.lt_succ_self n)
    rw [run_step, run_step, ih fun j hj => h j (Nat.lt_succ_of_lt hj)]
    cases hrun : m.run c (below + outer.length) n with
    | ended o =>
      rw [hrun] at hn
      exact absurd rfl hn
    | running a callers s => exact step_under outer a callers s

/-- A run that ends has a last state before its end, or has ended at once. -/
theorem exists_first_end {m : Machine} {n : Nat} {o : Ending Signal}
    (h : m.run c below n = ended o) :
    ∃ k, m.run c below k = ended o ∧ ∀ j < k, (m.run c below j).activations ≠ [] := by
  induction n generalizing m with
  | zero => exact ⟨0, h, by simp⟩
  | succ n ih =>
    obtain ⟨k, hend, hbefore⟩ := ih h
    cases m with
    | ended o' =>
      rw [run_ended] at h
      exact ⟨0, h, by simp⟩
    | running a callers s =>
      refine ⟨k + 1, hend, fun j hj => ?_⟩
      cases j with
      | zero => simp [activations]
      | succ j => exact hbefore j (Nat.lt_of_succ_lt_succ hj)

/-- A run ends by a statement of the program that runs, unless it has ended at once. -/
theorem exists_last_step {m : Machine} {n : Nat} {o : Ending Signal}
    (h : m.run c below n = ended o) :
    m = ended o ∨ ∃ k a callers s, m.run c below k = running a callers s ∧
      Yields c below a callers s (ended o) := by
  obtain ⟨k, hend, hbefore⟩ := exists_first_end h
  cases k with
  | zero => exact .inl hend
  | succ k =>
    have hk := hbefore k (Nat.lt_succ_self k)
    rw [run_step] at hend
    cases hrun : m.run c below k with
    | ended o' =>
      rw [hrun] at hk
      exact absurd rfl hk
    | running a callers s =>
      rw [hrun] at hend
      exact .inr ⟨k, a, callers, s, hrun, hend ▸ step_yields c below a callers s⟩

/-- A program that is called and ends leaves its caller where it was. -/
theorem run_callee {k : Nat} {m : Machine} {p : Program} {o : Ending Signal}
    (hm : m.run c below k = running a callers s) (hp : a.callee? c = some p)
    (ho : Ends c (below + (a :: callers).length) p s o) :
    ∃ n, m.run c below (k + 1 + n) = leave o (a :: callers) ∧
      ∀ j < n, ∃ b inner s', m.run c below (k + 1 + j) = running b (inner ++ a :: callers) s' := by
  obtain ⟨n, hn⟩ := ends_iff_run.mp ho
  obtain ⟨n, hend, hbefore⟩ := exists_first_end hn
  have hstart : m.run c below (k + 1) =
      (enter (below + (a :: callers).length) p [] s).under (a :: callers) := by
    rw [run_step, hm, step_callee hp, ← enter_append]
    rfl
  have hrun (j : Nat) (hj : j ≤ n) : m.run c below (k + 1 + j) =
      ((enter (below + (a :: callers).length) p [] s).run c (below + (a :: callers).length) j).under
        (a :: callers) := by
    rw [run_add, hstart]
    exact run_under _ fun i hi => hbefore i (Nat.lt_of_lt_of_le hi hj)
  refine ⟨n, ?_, fun j hj => ?_⟩
  · rw [hrun n (Nat.le_refl n), hend]
    rfl
  · have hrunning := hbefore j hj
    rw [hrun j (Nat.le_of_lt hj)]
    cases hstate : (enter (below + (a :: callers).length) p [] s).run c
        (below + (a :: callers).length) j with
    | ended o' =>
      rw [hstate] at hrunning
      exact absurd rfl hrunning
    | running b inner s' => exact ⟨b, inner, s', rfl⟩

/-- There are never more running programs than can be. -/
theorem length_running_le {p : Program} {s₀ : Scene} {n : Nat}
    (h : (enter below p [] s₀).run c below n = running a callers s) :
    below + (a :: callers).length ≤ maxCallDepth := by
  induction n generalizing a callers s with
  | zero =>
    rw [run_zero, enter] at h
    split at h
    · cases h
    · next hroom =>
      cases h
      exact Nat.not_le.mp hroom
  | succ n ih =>
    rw [run_step] at h
    cases hrun : (enter below p [] s₀).run c below n with
    | ended o =>
      rw [hrun] at h
      cases h
    | running b outer t =>
      have hbefore : below + (b :: outer).length ≤ maxCallDepth := ih hrun
      rw [hrun] at h
      have hyields : Yields c below b outer t (running a callers s) := h ▸ step_yields c below b outer t
      cases hyields with
      | onward hleads => exact hbefore
      | called hp hroom => exact hroom
      | returned hfinished houter =>
        subst houter
        simp only [List.length_cons] at hbefore ⊢
        omega

end Machine

end Handheld
