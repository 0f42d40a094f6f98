import Handheld.Proofs.Scene

/-!
# Runs on scenes

The run of a program, followed on scenes. One statement of it is unfolded by an equation that speaks
of scenes only, and a run that has ended is not changed by more fuel. A program ends with an outcome
when some amount of fuel is enough for it.
-/

namespace Handheld

namespace Ending

variable {α β : Type}

/-- Goes on after a result; a fault stays. -/
def andThen (o : Ending α) (k : α → Scene → Option (Ending β)) : Option (Ending β) :=
  match o with
  | .ok a s => k a s
  | .error f s => some (.error f s)

@[simp] theorem andThen_ok (a : α) (s : Scene) (k : α → Scene → Option (Ending β)) :
    andThen (.ok a s) k = k a s := rfl

@[simp] theorem andThen_error (f : Fault) (s : Scene) (k : α → Scene → Option (Ending β)) :
    andThen (.error f s) k = some (.error f s) := rfl

/-- What a test of a condition can lead to. -/
theorem andThen_test_cases {o : Ending Bool} {k : Bool → Scene → Option (Ending β)}
    {out : Ending β} (h : andThen o k = some out) :
    (∃ f s, o = .error f s ∧ out = .error f s) ∨ (∃ s, o = .ok true s ∧ k true s = some out) ∨
      ∃ s, o = .ok false s ∧ k false s = some out := by
  cases o with
  | error f s => exact Or.inl ⟨f, s, rfl, (Option.some.inj h).symm⟩
  | ok holds s =>
    cases holds with
    | true => exact Or.inr (Or.inl ⟨s, rfl, h⟩)
    | false => exact Or.inr (Or.inr ⟨s, rfl, h⟩)

/-- Going on after two actions in a row is going on after each. -/
theorem andThen_onScene_bind {γ : Type} (a : Action α) {f : α → Action β}
    (hf : ∀ x, (f x).Unlogged) (s : Scene) (k : β → Scene → Option (Ending γ)) :
    andThen ((a >>= f).onScene s) k =
      andThen (a.onScene s) fun x s' => andThen ((f x).onScene s') k := by
  change andThen (Outcome.seen (EStateM.bind a f s.world)) k = _
  rw [Action.onScene]
  unfold EStateM.bind
  cases a s.world with
  | ok x w =>
    simp only [Outcome.seen_ok, andThen_ok]
    rw [(hf x).seen_eq]
  | error g w => rfl

end Ending

/-- The run of a program from one of its statements, on a scene. -/
def runScene (c : Context) (fuel depth : Nat) (p : Program) (i : Nat) (frames : List Frame)
    (s : Scene) : Option (Ending Signal) :=
  (runFrom c fuel depth p i frames s.world).map Outcome.seen

/-- The run of a whole program on a scene. -/
def executeScene (c : Context) (fuel depth : Nat) (p : Program) (s : Scene) :
    Option (Ending Signal) :=
  (execute c fuel depth p s.world).map Outcome.seen

private theorem unlogged_startProgram (depth : Nat) (p : Program) :
    (startProgram depth p).Unlogged :=
  (Action.unlogged_throw _).ite (Action.unlogged_record _)

private theorem unlogged_endProgram (p : Program) (frames : List Frame) :
    (endProgram p frames).Unlogged := by
  unfold endProgram
  cases frames with
  | nil => exact Action.unlogged_pure _
  | cons f fs => exact (Action.unlogged_record _).bind fun _ => Action.unlogged_pure _

/-- Calling a program that does not exist fails. -/
theorem runFrom_undefined {c : Context} {p : Program} {i : Nat} {st : Statement} {name : String}
    (hst : p.statements[i]? = some st) (hcall : st.instruction = .call name)
    (hname : c.programs[name]? = none) (fuel depth : Nat) (frames : List Frame) (w : World) :
    runFrom c (fuel + 1) depth p i frames w =
      some (.error (.undefinedProgram name (some st.position))
        (w.record (.statement p.name i frames.length st))) := by
  rw [runFrom]
  simp only [hst, hcall, hname]

/-- Calling a program executes it, and only `Stop` ends the caller as well. -/
theorem runFrom_call {c : Context} {p callee : Program} {i : Nat} {st : Statement} {name : String}
    (hst : p.statements[i]? = some st) (hcall : st.instruction = .call name)
    (hname : c.programs[name]? = some callee) (fuel depth : Nat) (frames : List Frame)
    (w : World) :
    runFrom c (fuel + 1) depth p i frames w =
      match execute c fuel depth callee (w.record (.statement p.name i frames.length st)) with
      | none => none
      | some (.error f w) => some (.error f w)
      | some (.ok .stop w) => some (.ok .stop w)
      | some (.ok _ w) => runFrom c fuel depth p (i + 1) frames w := by
  rw [runFrom]
  simp only [hst, hcall, hname, execute]
  cases startProgram depth callee (w.record (.statement p.name i frames.length st)) <;> rfl

/-- Any other statement is one step. -/
theorem runFrom_step {c : Context} {p : Program} {i : Nat} {st : Statement}
    (hst : p.statements[i]? = some st) (hcall : ∀ name, st.instruction ≠ .call name)
    (fuel depth : Nat) (frames : List Frame) (w : World) :
    runFrom c (fuel + 1) depth p i frames w =
      match Place.step ⟨p.statements, i, frames⟩ c.commands p.name st
          (w.record (.statement p.name i frames.length st)) with
      | .error f w => some (.error f w)
      | .ok (.done signal) w => some (.ok signal w)
      | .ok (.next i frames) w => runFrom c fuel depth p i frames w := by
  rewrite [runFrom, hst]
  dsimp only
  cases hinstruction : st.instruction with
  | call name => exact absurd hinstruction (hcall name)
  | _ => rfl

/-- A run comes out in the same way whatever the log holds. A callee runs with the same fuel as what
follows its call, so one hypothesis serves both. -/
theorem runFrom_unlogged (c : Context) (fuel depth : Nat) (p : Program) (i : Nat)
    (frames : List Frame) {w v : World} (h : w.scene = v.scene) :
    (runFrom c fuel depth p i frames w).map Outcome.seen =
      (runFrom c fuel depth p i frames v).map Outcome.seen := by
  induction fuel generalizing depth p i frames w v with
  | zero => rfl
  | succ fuel ih =>
    have hexecute (q : Program) {w v : World} (h : w.scene = v.scene) :
        (execute c fuel depth q w).map Outcome.seen =
          (execute c fuel depth q v).map Outcome.seen := by
      unfold execute
      obtain ⟨_, w', v', hw, hv, hs⟩ | ⟨f, w', v', hw, hv, hs⟩ :=
        Outcome.seen_eq_cases (unlogged_startProgram depth q w v h)
      · rw [hw, hv]
        exact ih (depth + 1) q 0 [] hs
      · simp [hw, hv, hs]
    cases hst : p.statements[i]? with
    | none =>
      simp only [runFrom, hst, Option.map_some]
      exact congrArg some (unlogged_endProgram p frames w v h)
    | some st =>
      have hrecord : (w.record (.statement p.name i frames.length st)).scene =
          (v.record (.statement p.name i frames.length st)).scene := h
      by_cases hcall : ∃ name, st.instruction = .call name
      · obtain ⟨name, hcall⟩ := hcall
        cases hname : c.programs[name]? with
        | none =>
          rw [runFrom_undefined hst hcall hname, runFrom_undefined hst hcall hname]
          simp [h]
        | some callee =>
          rw [runFrom_call hst hcall hname, runFrom_call hst hcall hname]
          obtain ⟨hw, hv⟩ | ⟨o, o', hw, hv, ho⟩ :=
            Outcome.map_seen_eq_cases (hexecute callee hrecord)
          · rw [hw, hv]
          · obtain ⟨signal, w', v', rfl, rfl, hs⟩ | ⟨f, w', v', rfl, rfl, hs⟩ :=
              Outcome.seen_eq_cases ho
            · rw [hw, hv]
              cases signal with
              | stop => simp [hs]
              | none => exact ih depth p (i + 1) frames hs
              | ret => exact ih depth p (i + 1) frames hs
            · simp [hw, hv, hs]
      · have hcall : ∀ name, st.instruction ≠ .call name := not_exists.mp hcall
        rw [runFrom_step hst hcall, runFrom_step hst hcall]
        obtain ⟨progress, w', v', hw, hv, hs⟩ | ⟨f, w', v', hw, hv, hs⟩ :=
          Outcome.seen_eq_cases (Place.unlogged_step ⟨p.statements, i, frames⟩ c.commands p.name st
            _ _ hrecord)
        · rw [hw, hv]
          cases progress with
          | next j fs => exact ih depth p j fs hs
          | done signal => simp [hs]
        · simp [hw, hv, hs]

/-- A run can be followed on scenes. -/
theorem runFrom_seen (c : Context) (fuel depth : Nat) (p : Program) (i : Nat)
    (frames : List Frame) (w : World) :
    (runFrom c fuel depth p i frames w).map Outcome.seen =
      runScene c fuel depth p i frames w.scene :=
  runFrom_unlogged c fuel depth p i frames rfl

/-- The run of a whole program can be followed on scenes. -/
theorem execute_seen (c : Context) (fuel depth : Nat) (p : Program) (w : World) :
    (execute c fuel depth p w).map Outcome.seen = executeScene c fuel depth p w.scene := by
  have hstart := unlogged_startProgram depth p w w.scene.world rfl
  unfold executeScene execute
  obtain ⟨_, w', v', hw, hv, hs⟩ | ⟨f, w', v', hw, hv, hs⟩ := Outcome.seen_eq_cases hstart
  · rw [hw, hv]
    exact runFrom_unlogged c fuel (depth + 1) p 0 [] hs
  · simp [hw, hv, hs]

/-- Below the limit of running programs a program runs from its first statement. -/
theorem executeScene_of_lt {depth : Nat} (h : depth < maxCallDepth) (c : Context) (fuel : Nat)
    (p : Program) (s : Scene) :
    executeScene c fuel depth p s = runScene c fuel (depth + 1) p 0 [] s := by
  rw [executeScene, execute, startProgram, if_neg (Nat.not_le.mpr h)]
  exact runFrom_seen c fuel (depth + 1) p 0 [] (s.world.record (.executing p.name (depth + 1)))

/-- At the limit no program starts. -/
theorem executeScene_of_le {depth : Nat} (h : maxCallDepth ≤ depth) (c : Context) (fuel : Nat)
    (p : Program) (s : Scene) :
    executeScene c fuel depth p s = some (.error (.callDepth maxCallDepth) s) := by
  rw [executeScene, execute, startProgram, if_pos h]
  rfl

/-- A program that has run off its last statement ends, whatever blocks are open. -/
theorem runScene_end {c : Context} {p : Program} {i : Nat} (hst : p.statements[i]? = none)
    (fuel depth : Nat) (frames : List Frame) (s : Scene) :
    runScene c (fuel + 1) depth p i frames s = some (.ok .none s) := by
  simp only [runScene, runFrom, hst, Option.map_some]
  cases frames <;> rfl

/-- A call of a program that does not exist fails at the place of the call. -/
theorem runScene_undefined {c : Context} {p : Program} {i : Nat} {st : Statement} {name : String}
    (hst : p.statements[i]? = some st) (hcall : st.instruction = .call name)
    (hname : c.programs[name]? = none) (fuel depth : Nat) (frames : List Frame) (s : Scene) :
    runScene c (fuel + 1) depth p i frames s =
      some (.error (.undefinedProgram name (some st.position)) s) := by
  rw [runScene, runFrom_undefined hst hcall hname]
  rfl

/-- A call on a scene. -/
theorem runScene_call {c : Context} {p callee : Program} {i : Nat} {st : Statement} {name : String}
    (hst : p.statements[i]? = some st) (hcall : st.instruction = .call name)
    (hname : c.programs[name]? = some callee) (fuel depth : Nat) (frames : List Frame)
    (s : Scene) :
    runScene c (fuel + 1) depth p i frames s =
      (executeScene c fuel depth callee s).bind fun o => o.andThen fun signal s' =>
        if signal = .stop then some (.ok .stop s')
        else runScene c fuel depth p (i + 1) frames s' := by
  have hseen := execute_seen c fuel depth callee
    (s.world.record (.statement p.name i frames.length st))
  rw [World.scene_record, Scene.scene_world] at hseen
  rw [runScene, runFrom_call hst hcall hname, ← hseen]
  cases execute c fuel depth callee (s.world.record (.statement p.name i frames.length st)) with
  | none => rfl
  | some o =>
    cases o with
    | error f w => rfl
    | ok signal w =>
      cases signal with
      | stop => rfl
      | none => exact runFrom_seen c fuel depth p (i + 1) frames w
      | ret => exact runFrom_seen c fuel depth p (i + 1) frames w

/-- Any other statement on a scene. -/
theorem runScene_step {c : Context} {p : Program} {i : Nat} {st : Statement}
    (hst : p.statements[i]? = some st) (hcall : ∀ name, st.instruction ≠ .call name)
    (fuel depth : Nat) (frames : List Frame) (s : Scene) :
    runScene c (fuel + 1) depth p i frames s =
      ((Place.step ⟨p.statements, i, frames⟩ c.commands p.name st).onScene s).andThen
        fun progress s' =>
          match progress with
          | .next j frames => runScene c fuel depth p j frames s'
          | .done signal => some (.ok signal s') := by
  rw [runScene, runFrom_step hst hcall]
  have hseen := (Place.unlogged_step ⟨p.statements, i, frames⟩ c.commands p.name st).seen_eq
    (s.world.record (.statement p.name i frames.length st))
  rw [World.scene_record, Scene.scene_world] at hseen
  rw [← hseen]
  cases Place.step ⟨p.statements, i, frames⟩ c.commands p.name st
      (s.world.record (.statement p.name i frames.length st)) with
  | error f w => rfl
  | ok progress w =>
    cases progress with
    | next j frames => exact runFrom_seen c fuel depth p j frames w
    | done signal => rfl

/-- A run that has ended is not changed by more fuel. -/
theorem runScene_mono {c : Context} {fuel more depth : Nat} {p : Program} {i : Nat}
    {frames : List Frame} {s : Scene} {o : Ending Signal} (hle : fuel ≤ more)
    (h : runScene c fuel depth p i frames s = some o) :
    runScene c more depth p i frames s = some o := by
  induction fuel generalizing more depth p i frames s o with
  | zero => cases h
  | succ fuel ih =>
    obtain ⟨more, rfl⟩ := Nat.exists_eq_add_of_le' (Nat.le_trans (Nat.le_add_left 1 fuel) hle)
    have hle : fuel ≤ more := Nat.le_of_succ_le_succ hle
    cases hst : p.statements[i]? with
    | none => rwa [runScene_end hst] at h ⊢
    | some st =>
      by_cases hcall : ∃ name, st.instruction = .call name
      · obtain ⟨name, hcall⟩ := hcall
        cases hname : c.programs[name]? with
        | none => rwa [runScene_undefined hst hcall hname] at h ⊢
        | some callee =>
          rw [runScene_call hst hcall hname] at h ⊢
          obtain ⟨ended, hended, hnext⟩ := Option.bind_eq_some_iff.mp h
          have hmore : executeScene c more depth callee s = some ended := by
            by_cases hd : depth < maxCallDepth
            · rw [executeScene_of_lt hd] at hended ⊢
              exact ih hle hended
            · have hd : maxCallDepth ≤ depth := Nat.not_lt.mp hd
              rwa [executeScene_of_le hd] at hended ⊢
          rw [hmore]
          cases ended with
          | error f s' => exact hnext
          | ok signal s' =>
            rw [Ending.andThen_ok] at hnext
            rw [Option.bind_some, Ending.andThen_ok]
            split at hnext
            · next hstop => rwa [if_pos hstop]
            · next hstop => rw [if_neg hstop]; exact ih hle hnext
      · have hcall : ∀ name, st.instruction ≠ .call name := not_exists.mp hcall
        rw [runScene_step hst hcall] at h ⊢
        cases hstep : (Place.step ⟨p.statements, i, frames⟩ c.commands p.name st).onScene s with
        | error f s' => rwa [hstep] at h
        | ok progress s' =>
          rw [hstep] at h
          cases progress with
          | next j frames => exact ih hle h
          | done signal => exact h

/-- A program that has ended with some fuel ends so with more. -/
theorem executeScene_mono {c : Context} {fuel more depth : Nat} {p : Program} {s : Scene}
    {o : Ending Signal} (hle : fuel ≤ more) (h : executeScene c fuel depth p s = some o) :
    executeScene c more depth p s = some o := by
  by_cases hd : depth < maxCallDepth
  · rw [executeScene_of_lt hd] at h ⊢
    exact runScene_mono hle h
  · have hd : maxCallDepth ≤ depth := Nat.not_lt.mp hd
    rwa [executeScene_of_le hd] at h ⊢

/-- A program run from one of its statements ends so, given enough fuel. -/
def EndsFrom (c : Context) (depth : Nat) (p : Program) (i : Nat) (frames : List Frame) (s : Scene)
    (o : Ending Signal) : Prop :=
  ∃ fuel, runScene c fuel depth p i frames s = some o

/-- A program that is started while `depth` programs are running ends so, given enough fuel. -/
def Ends (c : Context) (depth : Nat) (p : Program) (s : Scene) (o : Ending Signal) : Prop :=
  ∃ fuel, executeScene c fuel depth p s = some o

/-- One statement before a run that ends. -/
theorem EndsFrom.step {c : Context} {depth : Nat} {p : Program} {i j : Nat}
    {frames frames' : List Frame} {s s' : Scene} {o : Ending Signal}
    (heq : ∀ fuel, runScene c (fuel + 1) depth p i frames s = runScene c fuel depth p j frames' s')
    (h : EndsFrom c depth p j frames' s' o) : EndsFrom c depth p i frames s o := by
  obtain ⟨fuel, hrun⟩ := h
  exact ⟨fuel + 1, (heq fuel).trans hrun⟩

/-- A program ends in one way only. -/
theorem Ends.unique {c : Context} {depth : Nat} {p : Program} {s : Scene} {o o' : Ending Signal}
    (h : Ends c depth p s o) (h' : Ends c depth p s o') : o = o' := by
  obtain ⟨fuel, hf⟩ := h
  obtain ⟨fuel', hf'⟩ := h'
  have hmax := executeScene_mono (Nat.le_max_left fuel fuel') hf
  rw [executeScene_mono (Nat.le_max_right fuel fuel') hf'] at hmax
  exact (Option.some.inj hmax).symm

/-- Ending is what running on the whole world comes to, as far as it can be seen. -/
theorem ends_iff_execute {c : Context} {depth : Nat} {p : Program} {w : World}
    {o : Ending Signal} :
    Ends c depth p w.scene o ↔
      ∃ fuel out, execute c fuel depth p w = some out ∧ Outcome.seen out = o := by
  refine exists_congr fun fuel => ?_
  rw [← execute_seen, Option.map_eq_some_iff]

end Handheld
