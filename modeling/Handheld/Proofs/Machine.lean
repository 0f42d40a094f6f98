import Handheld.Proofs.Run

/-!
# The machine of running programs

A run, written as a machine that executes one statement at a time. The programs that wait for one
they called stand on a stack, so there is no recursion and no fuel: a run is a sequence of states.
What holds at every statement of every run is said of these states, whether the run ends or not. The
machine ends exactly as the program does.
-/

namespace Handheld

/-- A program that is running. While it waits for a program that it called, it stays at the call. -/
structure Activation where
  /-- The program. -/
  program : Program
  /-- The index of the statement that it has come to. -/
  index : Nat
  /-- The open blocks, innermost first. -/
  frames : List Frame

namespace Activation

/-- A program before its first statement. -/
def start (p : Program) : Activation := ⟨p, 0, []⟩

/-- The statement that the program has come to, unless it has run off its end. -/
def statement? (a : Activation) : Option Statement := a.program.statements[a.index]?

/-- What the statement sees of the program. -/
def place (a : Activation) : Place := ⟨a.program.statements, a.index, a.frames⟩

/-- The program goes on with the next statement. -/
def next (a : Activation) : Activation := { a with index := a.index + 1 }

end Activation

/-- The state of a run. -/
inductive Machine
  /-- A program runs; those that wait for it stand innermost first. -/
  | running (top : Activation) (callers : List Activation) (s : Scene)
  /-- No program runs any more. -/
  | ended (o : Ending Signal)

/-- The scene at the end. -/
def Ending.scene {α : Type} : Ending α → Scene
  | .ok _ s => s
  | .error _ s => s

namespace Machine

/-- What the programs see. -/
def scene : Machine → Scene
  | running _ _ s => s
  | ended o => o.scene

/-- The statement that is executed next. -/
def statement? : Machine → Option Statement
  | running a _ _ => a.statement?
  | ended _ => none

/-- Starts a program while its callers and `below` other programs are running. -/
def enter (below : Nat) (p : Program) (callers : List Activation) (s : Scene) : Machine :=
  if maxCallDepth ≤ below + callers.length then ended (.error (.callDepth maxCallDepth) s)
  else running (.start p) callers s

/-- Goes on after a program has ended: with its caller, unless it has stopped or failed. -/
def leave : Ending Signal → List Activation → Machine
  | .error f s, _ => ended (.error f s)
  | .ok .stop s, _ => ended (.ok .stop s)
  | .ok signal s, [] => ended (.ok signal s)
  | .ok _ s, a :: callers => running a.next callers s

/-- Goes on after a statement that called no program. -/
def proceed (a : Activation) (callers : List Activation) : Ending Progress → Machine
  | .error f s => ended (.error f s)
  | .ok (.done signal) s => leave (.ok signal s) callers
  | .ok (.next i frames) s => running { a with index := i, frames := frames } callers s

/-- Executes one statement, or leaves a program that has run off its end. -/
def step (c : Context) (below : Nat) : Machine → Machine
  | ended o => ended o
  | running a callers s =>
    match a.statement? with
    | none => leave (.ok .none s) callers
    | some st =>
      match st.instruction with
      | .call name =>
        match c.programs[name]? with
        | none => ended (.error (.undefinedProgram name (some st.position)) s)
        | some callee => enter below callee (a :: callers) s
      | _ => proceed a callers ((a.place.step c.commands a.program.name st).onScene s)

/-- The state after `n` statements. -/
def run (c : Context) (below : Nat) : Nat → Machine → Machine
  | 0, m => m
  | n + 1, m => run c below n (m.step c below)

variable {c : Context} {below : Nat} {a : Activation} {callers : List Activation} {s : Scene}

/-- With no caller left, the machine has ended. -/
theorem leave_nil (o : Ending Signal) : leave o [] = ended o := by
  cases o with
  | error f s => rfl
  | ok signal s => cases signal <;> rfl

/-- Only `Stop` ends the caller as well. -/
theorem leave_caller {signal : Signal} (h : signal ≠ .stop) :
    leave (.ok signal s) (a :: callers) = running a.next callers s := by
  cases signal with
  | stop => exact absurd rfl h
  | none => rfl
  | ret => rfl

/-- A program that has run off its end is left. -/
theorem step_end (h : a.statement? = none) :
    (running a callers s).step c below = leave (.ok .none s) callers := by
  simp only [step, h]

/-- A call of a program that does not exist ends the run with a fault. -/
theorem step_undefined {st : Statement} {name : String} (hst : a.statement? = some st)
    (hcall : st.instruction = .call name) (hname : c.programs[name]? = none) :
    (running a callers s).step c below =
      ended (.error (.undefinedProgram name (some st.position)) s) := by
  simp only [step, hst, hcall, hname]

/-- A call of a program starts it above its caller. -/
theorem step_call {st : Statement} {name : String} {callee : Program}
    (hst : a.statement? = some st) (hcall : st.instruction = .call name)
    (hname : c.programs[name]? = some callee) :
    (running a callers s).step c below = enter below callee (a :: callers) s := by
  simp only [step, hst, hcall, hname]

/-- Any other statement acts on the program that runs. -/
theorem step_other {st : Statement} (hst : a.statement? = some st)
    (hcall : ∀ name, st.instruction ≠ .call name) :
    (running a callers s).step c below =
      proceed a callers ((a.place.step c.commands a.program.name st).onScene s) := by
  simp only [step, hst]

@[simp] theorem run_zero (m : Machine) : m.run c below 0 = m := rfl

theorem run_succ (n : Nat) (m : Machine) :
    m.run c below (n + 1) = (m.step c below).run c below n := rfl

/-- A run of some statements and then of others is a run of all of them. -/
theorem run_add (k n : Nat) (m : Machine) :
    m.run c below (k + n) = (m.run c below k).run c below n := by
  induction k generalizing m with
  | zero => rw [Nat.zero_add, run_zero]
  | succ k ih => rw [Nat.succ_add, run_succ, run_succ, ih]

/-- The last statement of a run is executed in the state before it. -/
theorem run_step (n : Nat) (m : Machine) :
    m.run c below (n + 1) = (m.run c below n).step c below := run_add n 1 m

/-- A run that has ended stays so. -/
@[simp] theorem run_ended (n : Nat) (o : Ending Signal) : (ended o).run c below n = ended o := by
  induction n with
  | zero => rfl
  | succ n ih => exact ih

/-- Every running program satisfies `P` and the scene `S`; a fault satisfies `R`. -/
def Holds (P : Activation → Prop) (S : Scene → Prop) (R : Fault → Prop) : Machine → Prop
  | running a callers s => (∀ b ∈ a :: callers, P b) ∧ S s
  | ended (.ok _ s) => S s
  | ended (.error f s) => S s ∧ R f

/-- The programs that are running, innermost first. -/
def activations : Machine → List Activation
  | running a callers _ => a :: callers
  | ended _ => []

/-- What holds of a state holds of every running program. -/
theorem Holds.activations {P : Activation → Prop} {S : Scene → Prop} {R : Fault → Prop}
    {m : Machine} (h : m.Holds P S R) : ∀ b ∈ m.activations, P b := by
  cases m with
  | running a callers s => exact h.1
  | ended o => intro b hb; cases hb

/-- The statement that is executed next belongs to a running program. -/
theorem Holds.exists_statement {P : Activation → Prop} {S : Scene → Prop} {R : Fault → Prop}
    {m : Machine} (h : m.Holds P S R) {st : Statement} (hst : m.statement? = some st) :
    ∃ a, P a ∧ a.statement? = some st := by
  cases m with
  | running a callers s => exact ⟨a, h.1 a (List.mem_cons_self ..), hst⟩
  | ended o => cases hst

/-- What holds of a state holds of its scene. -/
theorem Holds.scene {P : Activation → Prop} {S : Scene → Prop} {R : Fault → Prop} {m : Machine}
    (h : m.Holds P S R) : S m.scene := by
  match m with
  | running a callers s => exact h.2
  | ended (.ok signal s) => exact h
  | ended (.error f s) => exact h.1

/-- What one statement has to keep of a running program, the scene and the faults. -/
structure Invariant (c : Context) (P : Activation → Prop) (S : Scene → Prop) (R : Fault → Prop) :
    Prop where
  /-- A program can be called. -/
  start : ∀ (name : String) (p : Program), c.programs[name]? = some p → P (.start p)
  /-- A call can return. -/
  next : ∀ a, P a → P a.next
  /-- A statement of any other kind can be executed. -/
  step : ∀ a st s, P a → S s → a.statement? = some st →
    match (a.place.step c.commands a.program.name st).onScene s with
    | .ok (.next i frames) s' => P { a with index := i, frames := frames } ∧ S s'
    | .ok (.done _) s' => S s'
    | .error f s' => S s' ∧ R f
  /-- A program that is called may not exist. -/
  undefined : ∀ name pos, R (.undefinedProgram name pos)
  /-- Too many programs may be running. -/
  depth : R (.callDepth maxCallDepth)

namespace Invariant

variable {P : Activation → Prop} {S : Scene → Prop} {R : Fault → Prop}

/-- Starting a program keeps an invariant that holds of it at its start. -/
theorem holds_enter (h : Invariant c P S R) {p : Program} (hp : P (.start p))
    (hcallers : ∀ b ∈ callers, P b) (hs : S s) : (enter below p callers s).Holds P S R := by
  unfold enter
  split
  · exact ⟨hs, h.depth⟩
  · exact ⟨List.forall_mem_cons.mpr ⟨hp, hcallers⟩, hs⟩

/-- Leaving a program keeps an invariant that holds of its callers. -/
theorem holds_leave (h : Invariant c P S R) {signal : Signal} (hcallers : ∀ b ∈ callers, P b)
    (hs : S s) : (leave (.ok signal s) callers).Holds P S R := by
  by_cases hstop : signal = .stop
  · subst hstop
    exact hs
  · cases callers with
    | nil => rwa [leave_nil]
    | cons a callers =>
      rw [leave_caller hstop]
      obtain ⟨ha, hcallers⟩ := List.forall_mem_cons.mp hcallers
      exact ⟨List.forall_mem_cons.mpr ⟨h.next a ha, hcallers⟩, hs⟩

/-- What holds before a statement holds after it. -/
theorem holds_step (h : Invariant c P S R) {m : Machine} (hm : m.Holds P S R) :
    (m.step c below).Holds P S R := by
  cases m with
  | ended o => exact hm
  | running a callers s =>
    obtain ⟨hactivations, hs⟩ := hm
    obtain ⟨ha, hcallers⟩ := List.forall_mem_cons.mp hactivations
    cases hst : a.statement? with
    | none =>
      rw [step_end hst]
      exact h.holds_leave hcallers hs
    | some st =>
      by_cases hcall : ∃ name, st.instruction = .call name
      · obtain ⟨name, hcall⟩ := hcall
        cases hname : c.programs[name]? with
        | none =>
          rw [step_undefined hst hcall hname]
          exact ⟨hs, h.undefined name _⟩
        | some callee =>
          rw [step_call hst hcall hname]
          exact h.holds_enter (h.start name callee hname) hactivations hs
      · rw [step_other hst (not_exists.mp hcall)]
        have hplace := h.step a st s ha hs hst
        generalize (a.place.step c.commands a.program.name st).onScene s = o at hplace
        cases o with
        | error f s' => exact hplace
        | ok progress s' =>
          cases progress with
          | done signal => exact h.holds_leave hcallers hplace
          | next i frames => exact ⟨List.forall_mem_cons.mpr ⟨hplace.1, hcallers⟩, hplace.2⟩

/-- What holds when a run starts holds in every state of it. -/
theorem holds_run (h : Invariant c P S R) {m : Machine} (hm : m.Holds P S R) (n : Nat) :
    (m.run c below n).Holds P S R := by
  induction n generalizing m with
  | zero => exact hm
  | succ n ih => exact ih (h.holds_step hm)

end Invariant

/-- Where the machine gets from the first statement of a program it also gets by starting it. -/
theorem run_enter {p : Program} {fuel : Nat} {o : Ending Signal}
    (hrun : runScene c fuel (below + callers.length + 1) p 0 [] s = some o →
      ∃ n, (running (.start p) callers s).run c below n = leave o callers)
    (h : executeScene c fuel (below + callers.length) p s = some o) :
    ∃ n, (enter below p callers s).run c below n = leave o callers := by
  unfold enter
  split
  · next hdepth =>
    rw [executeScene_of_le hdepth] at h
    cases h
    exact ⟨0, rfl⟩
  · next hdepth =>
    rw [executeScene_of_lt (Nat.not_le.mp hdepth)] at h
    exact hrun h

/-- A program that ends takes the machine to where that program is left. A caller runs on from the
statement after the call. -/
theorem run_of_runScene {fuel : Nat} {o : Ending Signal}
    (h : runScene c fuel (below + (a :: callers).length) a.program a.index a.frames s = some o) :
    ∃ n, (running a callers s).run c below n = leave o callers := by
  induction fuel generalizing a callers s o with
  | zero => cases h
  | succ fuel ih =>
    have hstep {m : Machine} (hm : (running a callers s).step c below = m)
        (hn : ∃ n, m.run c below n = leave o callers) :
        ∃ n, (running a callers s).run c below n = leave o callers := by
      obtain ⟨n, hn⟩ := hn
      exact ⟨n + 1, by rw [run_succ, hm, hn]⟩
    cases hst : a.statement? with
    | none =>
      rw [runScene_end hst] at h
      cases h
      exact hstep (step_end hst) ⟨0, rfl⟩
    | some st =>
      by_cases hcall : ∃ name, st.instruction = .call name
      · obtain ⟨name, hcall⟩ := hcall
        cases hname : c.programs[name]? with
        | none =>
          rw [runScene_undefined hst hcall hname] at h
          cases h
          exact hstep (step_undefined hst hcall hname) ⟨0, rfl⟩
        | some callee =>
          rw [runScene_call hst hcall hname] at h
          obtain ⟨o', ho', h⟩ := Option.bind_eq_some_iff.mp h
          obtain ⟨n, hn⟩ := run_enter (p := callee) (ih (a := .start callee)) ho'
          refine hstep (step_call hst hcall hname) ?_
          cases o' with
          | error f s' =>
            cases h
            exact ⟨n, hn⟩
          | ok signal s' =>
            rw [Ending.andThen_ok] at h
            split at h
            · next hstop =>
              subst hstop
              cases h
              exact ⟨n, hn⟩
            · next hstop =>
              obtain ⟨k, hk⟩ := ih (a := a.next) h
              exact ⟨n + k, by rw [run_add, hn, leave_caller hstop, hk]⟩
      · have hcall : ∀ name, st.instruction ≠ .call name := not_exists.mp hcall
        rw [runScene_step hst hcall] at h
        refine hstep (step_other hst hcall) ?_
        change ((a.place.step c.commands a.program.name st).onScene s).andThen _ = _ at h
        cases hplace : (a.place.step c.commands a.program.name st).onScene s with
        | error f s' =>
          rw [hplace] at h
          cases h
          exact ⟨0, rfl⟩
        | ok progress s' =>
          rw [hplace] at h
          cases progress with
          | done signal =>
            cases h
            exact ⟨0, rfl⟩
          | next i frames => exact ih (a := { a with index := i, frames := frames }) h

/-- The program that runs ends so, and from where it is left the machine ends with `out` within `n`
steps. -/
def LeavesBy (c : Context) (below n : Nat) (a : Activation) (callers : List Activation) (s : Scene)
    (out : Ending Signal) : Prop :=
  ∃ fuel o k, runScene c fuel (below + (a :: callers).length) a.program a.index a.frames s = some o ∧
    k ≤ n ∧ (leave o callers).run c below k = ended out

/-- A machine that ends from the start of a program has started it in vain or leaves it. -/
theorem executeScene_of_run {p : Program} {n : Nat} {out : Ending Signal}
    (hrun : (running (.start p) callers s).run c below n = ended out →
      LeavesBy c below n (.start p) callers s out)
    (h : (enter below p callers s).run c below n = ended out) :
    ∃ fuel o k, (∀ more, fuel ≤ more → executeScene c more (below + callers.length) p s = some o) ∧
      k ≤ n ∧ (leave o callers).run c below k = ended out := by
  by_cases hdepth : maxCallDepth ≤ below + callers.length
  · rw [enter, if_pos hdepth] at h
    exact ⟨0, .error (.callDepth maxCallDepth) s, n,
      fun more _ => executeScene_of_le hdepth c more p s, Nat.le_refl n, h⟩
  · rw [enter, if_neg hdepth] at h
    obtain ⟨fuel, o, k, hends, hk, hleave⟩ := hrun h
    refine ⟨fuel, o, k, fun more hle => ?_, hk, hleave⟩
    rw [executeScene_of_lt (Nat.not_le.mp hdepth)]
    exact runScene_mono hle hends

/-- A machine that ends leaves the program that runs. At a call, one hypothesis is for the steps of
the callee and one for those left to the caller. -/
theorem leavesBy_of_run {n : Nat} {out : Ending Signal}
    (h : (running a callers s).run c below n = ended out) : LeavesBy c below n a callers s out := by
  induction n using Nat.strongRecOn generalizing a callers s with
  | ind n ih =>
    cases n with
    | zero => cases h
    | succ n =>
      have hn : n < n + 1 := Nat.lt_succ_self n
      rw [run_succ] at h
      cases hst : a.statement? with
      | none =>
        rw [step_end hst] at h
        exact ⟨1, _, n, runScene_end hst 0 _ _ s, Nat.le_of_lt hn, h⟩
      | some st =>
        by_cases hcall : ∃ name, st.instruction = .call name
        · obtain ⟨name, hcall⟩ := hcall
          cases hname : c.programs[name]? with
          | none =>
            rw [step_undefined hst hcall hname] at h
            exact ⟨1, _, n, runScene_undefined hst hcall hname 0 _ _ s, Nat.le_of_lt hn, h⟩
          | some callee =>
            rw [step_call hst hcall hname] at h
            obtain ⟨fuel, o, k, hexecute, hk, hleave⟩ := executeScene_of_run (ih n hn) h
            have hcaller (more : Nat) (hle : fuel ≤ more) :=
              (runScene_call hst hcall hname more _ a.frames s).trans
                (congrArg (Option.bind · _) (hexecute more hle))
            cases o with
            | error f s' =>
              exact ⟨fuel + 1, .error f s', k, hcaller fuel (Nat.le_refl fuel), by omega, hleave⟩
            | ok signal s' =>
              by_cases hstop : signal = .stop
              · subst hstop
                exact ⟨fuel + 1, .ok .stop s', k, hcaller fuel (Nat.le_refl fuel), by omega, hleave⟩
              · rw [leave_caller hstop] at hleave
                obtain ⟨fuel', o', k', hrun', hk', hleave'⟩ := ih k (by omega) hleave
                refine ⟨max fuel fuel' + 1, o', k', ?_, by omega, hleave'⟩
                rw [hcaller _ (Nat.le_max_left fuel fuel'), Option.bind_some, Ending.andThen_ok,
                  if_neg hstop]
                exact runScene_mono (Nat.le_max_right fuel fuel') hrun'
        · have hcall : ∀ name, st.instruction ≠ .call name := not_exists.mp hcall
          rw [step_other hst hcall] at h
          have hrunScene (fuel : Nat) := runScene_step (c := c) hst hcall fuel
            (below + (a :: callers).length) a.frames s
          change ∀ fuel, _ = ((a.place.step c.commands a.program.name st).onScene s).andThen _
            at hrunScene
          cases hplace : (a.place.step c.commands a.program.name st).onScene s with
          | error f s' =>
            rw [hplace] at h hrunScene
            exact ⟨1, .error f s', n, hrunScene 0, Nat.le_of_lt hn, h⟩
          | ok progress s' =>
            rw [hplace] at h hrunScene
            cases progress with
            | done signal => exact ⟨1, _, n, hrunScene 0, Nat.le_of_lt hn, h⟩
            | next i frames =>
              obtain ⟨fuel, o, k, hrun, hk, hleave⟩ := ih n hn h
              exact ⟨fuel + 1, o, k, (hrunScene fuel).trans hrun, by omega, hleave⟩

/-- A program ends in some way exactly if the machine that starts it does. -/
theorem ends_iff_run {p : Program} {o : Ending Signal} :
    Ends c below p s o ↔ ∃ n, (enter below p [] s).run c below n = ended o := by
  constructor
  · rintro ⟨fuel, h⟩
    have h : executeScene c fuel (below + ([] : List Activation).length) p s = some o := h
    obtain ⟨n, hn⟩ := run_enter (run_of_runScene (a := .start p)) h
    exact ⟨n, hn.trans (leave_nil o)⟩
  · rintro ⟨n, h⟩
    obtain ⟨fuel, o', k, hexecute, -, hleave⟩ := executeScene_of_run leavesBy_of_run h
    rw [leave_nil, run_ended] at hleave
    cases hleave
    exact ⟨fuel, hexecute fuel (Nat.le_refl fuel)⟩

/-- What every run keeps holds at its end. -/
theorem Invariant.holds_execute {P : Activation → Prop} {S : Scene → Prop} {R : Fault → Prop}
    (h : Invariant c P S R) {p : Program} {w : World} {fuel : Nat} {out : Outcome Signal}
    (hp : P (.start p)) (hw : S w.scene) (hrun : execute c fuel below p w = some out) :
    match out with
    | .ok _ v => S v.scene
    | .error f v => S v.scene ∧ R f := by
  obtain ⟨n, hn⟩ := ends_iff_run.mp (ends_iff_execute.mpr ⟨fuel, out, hrun, rfl⟩)
  have hstart : (enter below p [] w.scene).Holds P S R := h.holds_enter hp (by simp) hw
  have hend : ((enter below p [] w.scene).run c below n).Holds P S R := h.holds_run hstart n
  rw [hn] at hend
  cases out with
  | ok signal v => exact hend
  | error f v => exact hend

end Machine

end Handheld
