import Handheld.Execution.Run

/-!
# Nothing depends on the log

A scene is a world without its log. Every action of a running program, and so every run of a
program, comes out in the same way from two worlds that differ in their logs only. What a program
does can therefore be said on scenes.
-/

namespace Handheld

/-- What a running program can see and change: the world without its log. -/
structure Scene where
  /-- The variables. -/
  memory : Memory
  /-- The conversation with the user. -/
  console : Console

/-- How a run came out, as far as a program can see it. -/
abbrev Ending (α : Type) := EStateM.Result Fault Scene α

namespace World

/-- The world without its log. -/
def scene (w : World) : Scene := ⟨w.memory, w.console⟩

/-- Recording does not change the scene. -/
@[simp] theorem scene_record (w : World) (e : Event) : (w.record e).scene = w.scene := rfl

/-- Worlds with one scene share their variables. -/
theorem memory_eq_of_scene {w v : World} (h : w.scene = v.scene) : w.memory = v.memory :=
  congrArg Scene.memory h

/-- Worlds with one scene share their conversation. -/
theorem console_eq_of_scene {w v : World} (h : w.scene = v.scene) : w.console = v.console :=
  congrArg Scene.console h

end World

namespace Scene

/-- The scene as a world whose log is empty. -/
def world (s : Scene) : World := ⟨s.memory, s.console, Log.empty .trace⟩

@[simp] theorem scene_world (s : Scene) : s.world.scene = s := rfl

end Scene

namespace Outcome

/-- The outcome without the log. -/
def seen {α : Type} : Outcome α → Ending α
  | .ok a w => .ok a w.scene
  | .error f w => .error f w.scene

@[simp] theorem seen_ok {α : Type} (a : α) (w : World) :
    seen (.ok a w) = .ok a w.scene := rfl

@[simp] theorem seen_error {α : Type} (f : Fault) (w : World) :
    seen (.error f w : Outcome α) = .error f w.scene := rfl

/-- Outcomes that look alike are two results or two faults, with one scene. -/
theorem seen_eq_cases {α : Type} {o o' : Outcome α} (h : o.seen = o'.seen) :
    (∃ a w v, o = .ok a w ∧ o' = .ok a v ∧ w.scene = v.scene) ∨
      ∃ f w v, o = .error f w ∧ o' = .error f v ∧ w.scene = v.scene := by
  cases o with
  | ok a w =>
    cases o' with
    | ok b v =>
      injection h with ha hs
      exact Or.inl ⟨a, w, v, rfl, by rw [ha], hs⟩
    | error g v => cases h
  | error f w =>
    cases o' with
    | ok b v => cases h
    | error g v =>
      injection h with hf hs
      exact Or.inr ⟨f, w, v, rfl, by rw [hf], hs⟩

/-- Runs that look alike both go on, or both have come out alike. -/
theorem map_seen_eq_cases {α : Type} {x y : Option (Outcome α)} (h : x.map seen = y.map seen) :
    (x = none ∧ y = none) ∨ ∃ o o', x = some o ∧ y = some o' ∧ o.seen = o'.seen := by
  cases x with
  | none =>
    cases y with
    | none => exact Or.inl ⟨rfl, rfl⟩
    | some o' => cases h
  | some o =>
    cases y with
    | none => cases h
    | some o' => exact Or.inr ⟨o, o', rfl, rfl, Option.some.inj h⟩

end Outcome

namespace Action

variable {α β : Type}

/-- The action comes out in the same way whatever the log holds. -/
def Unlogged (a : Action α) : Prop :=
  ∀ w v : World, w.scene = v.scene → Outcome.seen (a w) = Outcome.seen (a v)

/-- The action on a scene. -/
def onScene (a : Action α) (s : Scene) : Ending α := Outcome.seen (a s.world)

/-- An unlogged action can be followed on scenes. -/
theorem Unlogged.seen_eq {a : Action α} (h : a.Unlogged) (w : World) :
    Outcome.seen (a w) = a.onScene w.scene := h w _ rfl

/-- A result comes out so with any log. -/
theorem unlogged_pure (x : α) : Unlogged (pure x : Action α) := by
  intro w v h
  exact congrArg (EStateM.Result.ok x) h

/-- A fault comes out so with any log. -/
theorem unlogged_throw (f : Fault) : Unlogged (throw f : Action α) := by
  intro w v h
  exact congrArg (EStateM.Result.error f) h

/-- A computation does not look at the log. -/
theorem unlogged_ofExcept (x : Except Fault α) : Unlogged (ofExcept x) := by
  cases x with
  | ok a => exact unlogged_pure a
  | error f => exact unlogged_throw f

/-- Actions in a row see no log if none of them does. -/
theorem Unlogged.bind {a : Action α} {f : α → Action β} (ha : a.Unlogged)
    (hf : ∀ x, (f x).Unlogged) : (a >>= f).Unlogged := by
  intro w v h
  change Outcome.seen (EStateM.bind a f w) = Outcome.seen (EStateM.bind a f v)
  unfold EStateM.bind
  obtain ⟨x, w', v', hw, hv, hs⟩ | ⟨g, w', v', hw, hv, hs⟩ := Outcome.seen_eq_cases (ha w v h)
  · rw [hw, hv]
    exact hf x w' v' hs
  · rw [hw, hv]
    exact congrArg (EStateM.Result.error g) hs

/-- Reading the world is harmless where only its scene is used. -/
theorem unlogged_get_bind {f : World → Action α}
    (hscene : ∀ w v : World, w.scene = v.scene → f w = f v) (hf : ∀ w, (f w).Unlogged) :
    (get >>= f).Unlogged := by
  intro w v h
  change Outcome.seen (f w w) = Outcome.seen (f v v)
  rw [hscene w v h]
  exact hf v w v h

/-- Recording does not look at the log. -/
theorem unlogged_record (e : Event) : Unlogged (record e) := by
  intro w v h
  exact congrArg (EStateM.Result.ok ()) h

private theorem unlogged_print (line : String) (fault : String → Fault) :
    Unlogged (print line fault) := by
  intro w v h
  simp only [print, World.console_eq_of_scene h]
  rcases v.console.print line with ⟨_ | cause, c⟩ <;>
    simp [World.scene, World.memory_eq_of_scene h]

private theorem unlogged_read : Unlogged read := by
  intro w v h
  simp only [read, World.console_eq_of_scene h]
  rcases v.console.read with ⟨(_ | _) | line, c⟩ <;>
    simp [World.scene, World.memory_eq_of_scene h]

/-- Storing does not look at the log. -/
theorem unlogged_store (x : Option Value) (t : Target) : Unlogged (store x t) := by
  intro w v h
  simp only [store, World.memory_eq_of_scene h]
  cases v.memory.store x t <;> simp [World.scene, World.console_eq_of_scene h,
    World.memory_eq_of_scene h]

/-- Setting `Ans` does not look at the log. -/
theorem unlogged_setAns (x : Option Value) : Unlogged (setAns x) := by
  intro w v h
  change Outcome.seen (.ok () { w with memory := w.memory.setAns x }) =
    Outcome.seen (.ok () { v with memory := v.memory.setAns x })
  simp [World.scene, World.memory_eq_of_scene h, World.console_eq_of_scene h]

/-- A conditional action sees no log if neither branch does. -/
theorem Unlogged.ite {p : Prop} [Decidable p] {a b : Action α} (ha : a.Unlogged)
    (hb : b.Unlogged) : (if p then a else b).Unlogged := by
  split
  · exact ha
  · exact hb

end Action

namespace Command

private theorem unlogged_displayAll (vs : List (Option Value)) : (displayAll vs).Unlogged := by
  induction vs with
  | nil => exact Action.unlogged_pure ()
  | cons v vs ih =>
    cases v with
    | none => exact Action.unlogged_throw _
    | some v => exact (Action.unlogged_print _ _).bind fun _ => ih

/-- Commands do not look at the log. -/
private theorem unlogged_execute (c : Command) (vs : List (Option Value)) :
    (c.execute vs).Unlogged := by
  unfold execute
  split
  · refine (Action.unlogged_ofExcept _).bind fun x => ?_
    refine (Action.unlogged_ofExcept _).bind fun v => ?_
    exact (Action.unlogged_record _).bind fun _ => Action.unlogged_pure _
  · refine (Action.unlogged_ofExcept _).bind fun v => ?_
    exact (Action.unlogged_record _).bind fun _ => Action.unlogged_pure _
  · exact Action.unlogged_ofExcept _
  · exact (unlogged_displayAll _).bind fun _ => Action.unlogged_pure _
  · exact Action.unlogged_throw _

/-- A command sees no log, though it may write to it. -/
theorem unlogged_run (c : Command) (name : String) (vs : List (Option Value)) :
    (c.run name vs).Unlogged := by
  unfold run
  split
  · exact (Action.unlogged_record _).bind fun _ => Action.unlogged_throw _
  · exact unlogged_execute c vs

end Command

/-- Running a command by name does not look at the log, even where its check does record. -/
private theorem Registry.unlogged_run (r : Registry) (name : String) (vs : List (Option Value)) :
    (r.run name vs).Unlogged := by
  unfold Registry.run
  split
  · exact Action.unlogged_throw _
  · exact Command.unlogged_run _ _ _

namespace Expr

private theorem unlogged_produce (e : Expr) {a : Action (Option Value)} (ha : a.Unlogged) :
    (produce e a).Unlogged := by
  refine ha.bind fun v => ?_
  cases v with
  | none => exact Action.unlogged_throw _
  | some v => exact Action.unlogged_pure _

mutual

/-- An expression sees no log. -/
theorem unlogged_eval (r : Registry) (e : Expr) : (e.eval r).Unlogged := by
  cases e with
  | number z p => rw [eval]; exact Action.unlogged_pure _
  | string s p => rw [eval]; exact Action.unlogged_pure _
  | var c p =>
    rw [eval]
    refine Action.unlogged_get_bind (fun w v h => ?_) fun w => Action.unlogged_pure _
    rw [World.memory_eq_of_scene h]
  | listVar n p =>
    rw [eval]
    refine Action.unlogged_get_bind (fun w v h => ?_) fun w => ?_
    · rw [World.memory_eq_of_scene h]
    · exact (Action.unlogged_ofExcept _).bind fun _ => Action.unlogged_pure _
  | ans p =>
    rw [eval]
    refine Action.unlogged_get_bind (fun w v h => ?_) fun w => Action.unlogged_pure _
    rw [World.memory_eq_of_scene h]
  | list es p =>
    rw [eval]
    refine (Action.unlogged_throw _).ite ?_
    exact (unlogged_evalElements r es).bind fun _ => Action.unlogged_pure _
  | unary op x p =>
    rw [eval]
    exact (unlogged_eval r x).bind fun _ => unlogged_produce _ (Registry.unlogged_run _ _ _)
  | binary op x y p =>
    rw [eval]
    refine (unlogged_eval r x).bind fun _ => (unlogged_eval r y).bind fun _ => ?_
    exact unlogged_produce _ (Registry.unlogged_run _ _ _)
  | call f es p =>
    rw [eval]
    exact (unlogged_evalAll r es).bind fun _ => unlogged_produce _ (Registry.unlogged_run _ _ _)

theorem unlogged_evalAll (r : Registry) (es : List Expr) : (evalAll r es).Unlogged := by
  cases es with
  | nil => rw [evalAll]; exact Action.unlogged_pure _
  | cons e es =>
    rw [evalAll]
    refine (unlogged_eval r e).bind fun _ => (unlogged_evalAll r es).bind fun _ => ?_
    exact Action.unlogged_pure _

theorem unlogged_evalElements (r : Registry) (es : List Expr) :
    (evalElements r es).Unlogged := by
  cases es with
  | nil => rw [evalElements]; exact Action.unlogged_pure _
  | cons e es =>
    rw [evalElements]
    refine (unlogged_eval r e).bind fun v => ?_
    split
    · exact (unlogged_evalElements r es).bind fun _ => Action.unlogged_pure _
    · exact Action.unlogged_throw _

end

/-- A condition sees no log. -/
theorem unlogged_test (r : Registry) (e : Expr) : (e.test r).Unlogged :=
  (unlogged_eval r e).bind fun _ => Action.unlogged_ofExcept _

private theorem unlogged_evalText (r : Registry) (text : String) : (evalText r text).Unlogged :=
  (Action.unlogged_ofExcept _).bind fun e => unlogged_eval r e

end Expr

/-- Reading a value does not look at the log. -/
private theorem unlogged_readInto (r : Registry) (text : String) (t : Target) :
    (readInto r text t).Unlogged := by
  refine (Action.unlogged_print _ _).bind fun _ => Action.unlogged_read.bind fun line => ?_
  exact (Expr.unlogged_evalText r line).bind fun v => Action.unlogged_store v t

/-- Prompting does not look at the log. -/
theorem unlogged_promptAll (r : Registry) (ts : List Target) : (promptAll r ts).Unlogged := by
  induction ts with
  | nil => exact Action.unlogged_pure ()
  | cons t ts ih => exact (unlogged_readInto r _ t).bind fun _ => ih

namespace Place

private theorem unlogged_runCond (p : Place) (r : Registry) (test : Expr) :
    (p.runCond r test).Unlogged := by
  refine (Expr.unlogged_test r test).bind fun holds => ?_
  refine Action.Unlogged.ite (Action.Unlogged.ite (Action.unlogged_pure _) ?_) ?_
  · refine (Action.unlogged_ofExcept _).bind fun i => ?_
    exact (Action.unlogged_pure _).ite (Action.unlogged_pure _)
  · exact (Action.unlogged_pure _).ite (Action.unlogged_pure _)

private theorem unlogged_runElse (p : Place) (pos : Position) : (p.runElse pos).Unlogged := by
  unfold runElse
  split
  · exact (Action.unlogged_ofExcept _).bind fun _ => Action.unlogged_pure _
  · exact Action.unlogged_throw _

private theorem unlogged_runWhile (p : Place) (r : Registry) (test : Expr) (pos : Position) :
    (p.runWhile r test pos).Unlogged := by
  refine (Action.unlogged_throw _).ite ((Expr.unlogged_test r test).bind fun holds => ?_)
  refine (Action.unlogged_pure _).ite ?_
  exact (Action.unlogged_ofExcept _).bind fun _ => Action.unlogged_pure _

private theorem unlogged_runEnd (p : Place) (r : Registry) (pos : Position) :
    (p.runEnd r pos).Unlogged := by
  unfold runEnd
  split
  · exact Action.unlogged_throw _
  · split
    · exact Action.unlogged_pure _
    · exact Action.unlogged_pure _
    · refine (Expr.unlogged_test r _).bind fun _ => ?_
      exact (Action.unlogged_pure _).ite (Action.unlogged_pure _)

private theorem unlogged_runExpression (p : Place) (r : Registry) (e : Expr)
    (target : Option Target) : (p.runExpression r e target).Unlogged := by
  refine (Expr.unlogged_eval r e).bind fun v => ?_
  cases target with
  | none => exact (Action.unlogged_setAns v).bind fun _ => Action.unlogged_pure _
  | some t =>
    refine (Action.unlogged_store v t).bind fun _ => ?_
    exact (Action.unlogged_setAns v).bind fun _ => Action.unlogged_pure _

/-- A statement sees no log. -/
theorem unlogged_step (p : Place) (r : Registry) (program : String) (s : Statement) :
    (p.step r program s).Unlogged := by
  unfold step
  split
  · exact unlogged_runCond p r _
  · exact Action.unlogged_throw _
  · exact unlogged_runElse p _
  · exact unlogged_runWhile p r _ _
  · exact (Action.unlogged_throw _).ite (Action.unlogged_pure _)
  · exact unlogged_runEnd p r _
  · exact (Action.unlogged_record _).bind fun _ => Action.unlogged_pure _
  · exact Action.unlogged_pure _
  · refine (Expr.unlogged_evalAll r _).bind fun vs => ?_
    exact (Registry.unlogged_run r _ vs).bind fun _ => Action.unlogged_pure _
  · exact (unlogged_readInto r _ _).bind fun _ => Action.unlogged_pure _
  · exact (unlogged_promptAll r _).bind fun _ => Action.unlogged_pure _
  · exact Action.unlogged_pure _
  · exact unlogged_runExpression p r _ _

end Place

end Handheld
