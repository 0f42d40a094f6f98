import Handheld.Proofs.Machine
import Handheld.Proofs.Steps

/-!
# What a run writes

A run changes the memory by single writes. Evaluation writes nothing, so the writes of a statement
are its stores and the last result, and a statement that fails has none; only `Prompt` keeps the
targets it has read before. The memory at the end of a run is the memory at its start with the
writes of its statements made one after another.
-/

namespace Handheld

/-- One change of the memory. -/
inductive Write
  /-- A number is stored. -/
  | number (name : Char) (z : Number)
  /-- A list is stored. -/
  | list (name : String) (zs : List Number)
  /-- The last result is set. -/
  | ans (v : Option Value)

namespace Write

/-- The variable that is written; the last result is not one. -/
def target : Write → Option Target
  | number c _ => some (.var c)
  | list n _ => some (.list n)
  | ans _ => none

/-- The value that is written. -/
def value : Write → Option Value
  | number _ z => some (.number z)
  | list _ zs => some (.list zs)
  | ans v => v

end Write

namespace Memory

/-- The memory after a write. -/
def write (m : Memory) : Write → Memory
  | .number c z => { m with numbers := m.numbers.insert c z }
  | .list n zs => { m with lists := m.lists.insert n zs }
  | .ans v => m.setAns v

/-- The write that a store comes down to, unless the memory refuses it. -/
def stored (m : Memory) (v : Option Value) (t : Target) : Option Write :=
  match m.store v t, v, t with
  | .ok _, some (.number z), .var c => some (.number c z)
  | .ok _, some (.list zs), .list n => some (.list n zs)
  | _, _, _ => none

end Memory

/-- The run ended with a fault. -/
def Ending.failed {α : Type} : Ending α → Bool
  | .ok _ _ => false
  | .error _ _ => true

namespace Action

variable {α β : Type}

/-- The action leaves the variables as they are. -/
def Reads (a : Action α) : Prop := ∀ s, (a.onScene s).scene.memory = s.memory

/-- Two actions in a row, followed on scenes. -/
theorem onScene_bind (a : Action α) {f : α → Action β} (hf : ∀ x, (f x).Unlogged) (s : Scene) :
    (a >>= f).onScene s =
      match a.onScene s with
      | .ok x s' => (f x).onScene s'
      | .error g s' => .error g s' := by
  change Outcome.seen (EStateM.bind a f s.world) = _
  unfold EStateM.bind onScene
  cases a s.world with
  | ok x w => exact (hf x).seen_eq w
  | error g w => rfl

/-- A store, followed on scenes. -/
theorem onScene_store (v : Option Value) (t : Target) (s : Scene) :
    (store v t).onScene s =
      match s.memory.store v t with
      | .ok m => .ok () { s with memory := m }
      | .error f => .error f s := by
  change Outcome.seen (match s.memory.store v t with
    | .ok m => .ok () { s.world with memory := m }
    | .error f => .error f s.world) = _
  cases s.memory.store v t <;> rfl

end Action

/-- The write of a target for which a value is read, unless that fails. -/
def entry (r : Registry) (text : String) (t : Target) (s : Scene) : Option Write :=
  match (ask r text).onScene s with
  | .ok v s' => s'.memory.stored v t
  | .error _ _ => none

/-- The writes of `Prompt`: those of its targets up to the first that fails. -/
def entries (r : Registry) : List Target → Scene → List Write
  | [], _ => []
  | t :: ts, s =>
    match entry r (t.text ++ "=?") t s, (readInto r (t.text ++ "=?") t).onScene s with
    | some x, .ok () s' => x :: entries r ts s'
    | _, _ => []

/-- The writes of an expression: its value to the target, if there is one, and then to the last
result, unless the evaluation or the store fails. -/
def results (r : Registry) (e : Expr) (target : Option Target) (s : Scene) : List Write :=
  match (e.eval r).onScene s with
  | .error _ _ => []
  | .ok v s' =>
    match target with
    | none => [.ans v]
    | some t =>
      match s'.memory.stored v t with
      | none => []
      | some x => [x, .ans v]

namespace Instruction

/-- The writes of an instruction that is executed in a scene. -/
def writes (r : Registry) (s : Scene) : Instruction → List Write
  | expression e target => results r e target s
  | input text t => (entry r text t s).toList
  | prompt ts => entries r ts s
  | cond _ | consequent | alternative | whileLoop _ | repeatLoop _ | blockEnd | stop | ret
  | display _ | call _ => []

/-- The instruction is an expression, whose value becomes the last result. -/
def isExpression : Instruction → Bool
  | expression _ _ => true
  | _ => false

/-- What an instruction writes when nothing fails: its targets, and the last result after them if it
is an expression. -/
def written (i : Instruction) : List (Option Target) :=
  i.targets.map some ++ if i.isExpression then [none] else []

end Instruction

namespace Place

variable {r : Registry} {s : Scene}

/-- An expression, followed on scenes: its value is stored before it becomes the last result. -/
theorem runExpression_onScene (p : Place) (r : Registry) (e : Expr) (target : Option Target)
    (s : Scene) :
    (p.runExpression r e target).onScene s =
      match (e.eval r).onScene s with
      | .error f s' => .error f s'
      | .ok v s' =>
        match target.elim (.ok s'.memory) (s'.memory.store v) with
        | .error f => .error f s'
        | .ok m => .ok p.advance { s' with memory := m.setAns v } := by
  have hans (v : Option Value) : (Action.setAns v >>= fun _ => pure p.advance).Unlogged :=
    (Action.unlogged_setAns v).bind fun _ => Action.unlogged_pure _
  cases target with
  | none =>
    change (e.eval r >>= fun v => Action.setAns v >>= fun _ => pure p.advance).onScene s = _
    rw [Action.onScene_bind _ hans]
    cases (e.eval r).onScene s <;> rfl
  | some t =>
    change (e.eval r >>= fun v => Action.store v t >>= fun _ =>
      Action.setAns v >>= fun _ => pure p.advance).onScene s = _
    rw [Action.onScene_bind _ fun v => (Action.unlogged_store v t).bind fun _ => hans v]
    cases (e.eval r).onScene s with
    | error f s' => rfl
    | ok v s' =>
      simp only [Action.onScene_bind _ fun _ => hans v, Action.onScene_store, Option.elim_some]
      cases s'.memory.store v t <;> rfl

end Place

namespace Machine

/-- The run has ended with a fault. -/
def failed : Machine → Bool
  | running _ _ _ => false
  | ended o => o.failed

/-- The writes of the statement that is executed next. -/
def writes (c : Context) (m : Machine) : List Write :=
  m.statement?.elim [] fun st => st.instruction.writes c.commands m.scene

/-- The writes of the next `n` statements, in the order in which they are executed. -/
def history (c : Context) (below n : Nat) (m : Machine) : List Write :=
  (List.range n).flatMap fun k => (m.run c below k).writes c

variable {c : Context} {below : Nat} {a : Activation} {callers : List Activation} {s : Scene}

end Machine

end Handheld
