import Handheld.Proofs.Commands
import Handheld.Proofs.Scene

/-!
# Arithmetic place by place

An operation on numbers is carried over to values place by place: a number stands at every place,
and an element of a list at its own. The first place that fails decides the fault. The check that a
command makes before it runs refuses what the operation itself would refuse, with the same fault, so
a built-in command does what its operation does and nothing else.
-/

namespace Handheld

namespace Value

/-- The number that a value has at a place; a number stands at every place. -/
def part? : Value → Nat → Option Number
  | number z, _ => some z
  | list zs, i => zs[i]?
  | string _, _ => none

/-- An operation at a place of two values. -/
def atPlace (f : Number → Number → Except Fault Number) (a b : Value) (i : Nat) :
    Option (Except Fault Number) :=
  (a.part? i).bind fun x => (b.part? i).map (f x)

/-- Two values with `n` places in common, at least one of them a list. -/
inductive Paired : Value → Value → Nat → Prop
  | numberList (x : Number) (bs : List Number) : Paired (number x) (list bs) bs.length
  | listNumber (as : List Number) (y : Number) : Paired (list as) (number y) as.length
  | lists {as bs : List Number} (h : as.length = bs.length) :
      Paired (list as) (list bs) as.length

/-- The result of going through `n` places: the list of what they give, or the fault of the first
place that fails. -/
def Elementwise (n : Nat) (g : Nat → Option (Except Fault Number)) : Except Fault Value → Prop
  | .ok v => ∃ zs, v = list zs ∧ zs.length = n ∧ ∀ i z, zs[i]? = some z → g i = some (.ok z)
  | .error f => ∃ i < n, g i = some (.error f) ∧ ∀ j < i, ∃ z, g j = some (.ok z)

/-- The fault of two lists of different lengths. -/
def RefusesLengths (as bs : List Number) (r : Except Fault Value) : Prop :=
  ∃ f, r = .error f ∧ f.reason = .argument ∧
    f.arguments? = some ⟨.none, .list, .list, [some (list as).text, some (list bs).text]⟩

/-- The fault of a string where a number is expected. -/
def RefusesString (side : Side) (s : String) (r : Except Fault Value) : Prop :=
  ∃ f, r = .error f ∧ f.reason = .argument ∧
    f.arguments? = some ⟨side, .number, .string, [some s]⟩

/-- The operation `g` on values does what the operation `f` on numbers does, place by place. -/
structure Carries (f : Number → Number → Except Fault Number)
    (g : Value → Value → Except Fault Value) : Prop where
  numbers (x y : Number) : g (number x) (number y) = (f x y).map number
  places {a b : Value} {n : Nat} (h : Paired a b n) : Elementwise n (atPlace f a b) (g a b)
  lengths {as bs : List Number} (h : as.length ≠ bs.length) :
    RefusesLengths as bs (g (list as) (list bs))
  /-- A string on the left is at fault whatever stands on the right. -/
  left (s : String) (b : Value) : RefusesString .left s (g (string s) b)
  right {a : Value} (ha : a.isNumeric = true) (s : String) : RefusesString .right s (g a (string s))

/-- The function `g` of a value does what the function `f` of a number does, place by place. -/
structure CarriesUnary (f : Number → Except Fault Number) (g : Value → Except Fault Value) :
    Prop where
  number (x : Number) : g (number x) = (f x).map Value.number
  places (zs : List Number) :
    Elementwise zs.length (fun i => ((list zs).part? i).map f) (g (list zs))
  string (s : String) : RefusesString .none s (g (string s))

/-- Going through a list stops at the first element that fails. -/
theorem elementwise_mapM {α : Type} (h : α → Except Fault Number) (as : List α) :
    Elementwise as.length (fun i => as[i]?.map h) (do return list (← as.mapM h)) := by
  induction as with
  | nil => exact ⟨[], rfl, rfl, by simp⟩
  | cons a as ih =>
    rw [List.mapM_cons]
    cases ha : h a with
    | error f => exact ⟨0, Nat.succ_pos _, congrArg some ha, fun j hj => absurd hj (Nat.not_lt_zero j)⟩
    | ok z =>
      have hfirst : (a :: as)[0]?.map h = some (.ok z) := congrArg some ha
      cases has : as.mapM h with
      | error f =>
        rw [has] at ih
        obtain ⟨i, hi, hfault, hbefore⟩ := ih
        refine ⟨i + 1, Nat.succ_lt_succ hi, hfault, fun j hj => ?_⟩
        cases j with
        | zero => exact ⟨z, hfirst⟩
        | succ j => exact hbefore j (Nat.lt_of_succ_lt_succ hj)
      | ok zs =>
        rw [has] at ih
        obtain ⟨zs', heq, hlength, hplaces⟩ := ih
        cases heq
        refine ⟨z :: zs, rfl, congrArg (· + 1) hlength, fun i x hx => ?_⟩
        cases i with
        | zero =>
          cases hx
          exact hfirst
        | succ i => exact hplaces i x hx

private theorem Elementwise.congr {n : Nat} {g g' : Nat → Option (Except Fault Number)}
    {r : Except Fault Value} (h : Elementwise n g r) (heq : ∀ i, g' i = g i) :
    Elementwise n g' r := by
  rwa [show g' = g from funext heq]

private theorem refusesString_mismatch (side : Side) (s : String) :
    RefusesString side s (.error (.mismatch side .number (some (string s)))) :=
  ⟨_, rfl, rfl, rfl⟩

/-- Combining values is going through their places. -/
theorem carries_broadcast (f : Number → Number → Except Fault Number) :
    Carries f (broadcast f) where
  numbers x y := by
    rw [broadcast]
    cases f x y <;> rfl
  places {a b n} h := by
    cases h with
    | numberList x bs => exact elementwise_mapM (f x) bs
    | listNumber as y =>
      refine (elementwise_mapM (f · y) as).congr fun i => ?_
      simp only [atPlace, part?]
      cases as[i]? <;> rfl
    | @lists as bs hlength =>
      have hcount : as.length = (as.zip bs).length := by
        rw [List.length_zip, ← hlength, Nat.min_self]
      rw [broadcast, if_pos hlength, hcount]
      refine (elementwise_mapM _ (as.zip bs)).congr fun i => ?_
      simp only [atPlace, part?, List.zip, List.getElem?_zipWith]
      cases as[i]? <;> cases bs[i]? <;> rfl
  lengths {as bs} h := by
    rw [broadcast, if_neg h]
    exact ⟨_, rfl, rfl, rfl⟩
  left s b := refusesString_mismatch .left s
  right {a} ha s := by
    cases a with
    | number x => exact refusesString_mismatch .right s
    | list as => exact refusesString_mismatch .right s
    | string s' => cases ha

/-- Going through the numbers of a value carries the function over. -/
theorem carries_mapNumbers (f : Number → Except Fault Number) :
    CarriesUnary f (mapNumbers f) where
  number x := by
    rw [mapNumbers]
    cases f x <;> rfl
  places zs := elementwise_mapM f zs
  string s := refusesString_mismatch .none s

end Value

/-- The ending of something that computes a value and touches nothing. -/
def Ending.ofExcept (r : Except Fault Value) (s : Scene) : Ending (Option Value) :=
  match r with
  | .ok v => .ok (some v) s
  | .error f => .error f s

namespace Command

/-- What the check of an operator refuses, the operator itself refuses with the same fault. -/
theorem broadcast_of_check {symbol name : String} {f : Number → Number → Except Fault Number}
    {a b : Value} {fault : Fault}
    (h : (binary symbol (Value.broadcast f)).check name [some a, some b] = .error fault) :
    Value.broadcast f a b = .error fault := by
  have h : checkValues (binary symbol (Value.broadcast f)) [some a, some b] = .error fault := h
  cases a with
  | string s =>
    cases h
    rfl
  | number x =>
    cases b with
    | string s =>
      cases h
      rfl
    | number y => cases h
    | list bs => cases h
  | list as =>
    cases b with
    | string s =>
      cases h
      rfl
    | number y => cases h
    | list bs =>
      have h : (if as.length = bs.length then Except.ok () else .error (.dimensions as bs)) =
          .error fault := h
      split at h
      · cases h
      · next hlength =>
        cases h
        rw [Value.broadcast, if_neg hlength]

/-- What the check of a function refuses, the function itself refuses with the same fault. -/
theorem mapNumbers_of_check {symbol name : String} {f : Number → Except Fault Number} {a : Value}
    {fault : Fault} (h : (unary symbol f).check name [some a] = .error fault) :
    a.mapNumbers f = .error fault := by
  have h : checkValues (unary symbol f) [some a] = .error fault := h
  cases a with
  | string s =>
    cases h
    rfl
  | number x => cases h
  | list zs => cases h

/-- A command that is checked first does what it computes, if its check anticipates its faults. -/
theorem seen_run {c : Command} {name : String} {vs : List (Option Value)} {r : Except Fault Value}
    (hcheck : ∀ f, c.check name vs = .error f → r = .error f)
    (hexecute : ∀ w, Outcome.seen (c.execute vs w) = Ending.ofExcept r w.scene) (w : World) :
    Outcome.seen (c.run name vs w) = Ending.ofExcept r w.scene := by
  unfold run
  cases h : c.check name vs with
  | error f =>
    rw [hcheck f h]
    rfl
  | ok _ => exact hexecute w

/-- The command of an operator computes and touches nothing. -/
theorem seen_execute_binary (symbol : String) (fn : Value → Value → Except Fault Value)
    (a b : Value) (w : World) :
    Outcome.seen ((binary symbol fn).execute [some a, some b] w) =
      Ending.ofExcept (fn a b) w.scene := by
  have hexecute : (binary symbol fn).execute [some a, some b] = do
      let v ← Action.ofExcept (fn a b)
      Action.record (.appliedBinary symbol a b v)
      return some v := rfl
  rw [hexecute]
  cases fn a b <;> rfl

/-- The command of a function computes and touches nothing. -/
theorem seen_execute_unary (symbol : String) (fn : Number → Except Fault Number) (a : Value)
    (w : World) :
    Outcome.seen ((unary symbol fn).execute [some a] w) =
      Ending.ofExcept (a.mapNumbers fn) w.scene := by
  have hexecute : (unary symbol fn).execute [some a] = do
      let v ← Action.ofExcept (a.mapNumbers fn)
      Action.record (.appliedUnary symbol a v)
      return some v := rfl
  rw [hexecute]
  cases a.mapNumbers fn <;> rfl

end Command

/-- A registered command is run under its name. -/
theorem Registry.run_of_getElem? {r : Registry} {name : String} {c : Command}
    (h : r[name]? = some c) (vs : List (Option Value)) : r.run name vs = c.run name vs := by
  rw [run, h]

namespace Builtin

private theorem mem_binaryOps (op : BinaryOp) : op ∈ Symbol.binaryOps := by
  cases op <;> decide

/-- What the commands are. -/
theorem mem_commands_cases {name : String} {c : Command} (h : (name, c) ∈ commands) :
    (∃ op : BinaryOp, name = op.symbol ∧ c = .binary op.symbol op.apply) ∨
      (∃ fn, (name, fn) ∈ unaryFunctions ∧ c = .unary name fn) ∨
      (∃ least most accepts fn, c = .function least most accepts fn) ∨
      name = displayName ∧ c = .display := by
  have hfunctions : ∀ entry ∈ functions, ∃ least most accepts fn,
      entry.2 = .function least most accepts fn := by
    simp [functions]
  simp only [commands, List.mem_append, List.mem_map, List.mem_singleton] at h
  obtain ((⟨op, -, heq⟩ | ⟨⟨_, fn⟩, hmem, heq⟩) | hmem) | heq := h
  · cases heq
    exact Or.inl ⟨op, rfl, rfl⟩
  · cases heq
    exact Or.inr (Or.inl ⟨fn, hmem, rfl⟩)
  · exact Or.inr (Or.inr (Or.inl (hfunctions _ hmem)))
  · cases heq
    exact Or.inr (Or.inr (Or.inr ⟨rfl, rfl⟩))

/-- The operators among the commands. -/
theorem getElem?_eq_binary_iff {name symbol : String} {fn : Value → Value → Except Fault Value} :
    registry[name]? = some (.binary symbol fn) ↔
      ∃ op : BinaryOp, name = op.symbol ∧ symbol = op.symbol ∧ fn = op.apply := by
  rw [getElem?_eq_some_iff]
  constructor
  · intro h
    obtain ⟨op, rfl, heq⟩ | ⟨_, -, heq⟩ | ⟨_, _, _, _, heq⟩ | ⟨-, heq⟩ := mem_commands_cases h
    · cases heq
      exact ⟨op, rfl, rfl, rfl⟩
    · cases heq
    · cases heq
    · cases heq
  · rintro ⟨op, rfl, rfl, rfl⟩
    simp only [commands, List.mem_append, List.mem_map]
    exact Or.inl (Or.inl (Or.inl ⟨op, mem_binaryOps op, rfl⟩))

/-- The functions of one number among the commands. -/
theorem getElem?_eq_unary_iff {name symbol : String} {fn : Number → Except Fault Number} :
    registry[name]? = some (.unary symbol fn) ↔ symbol = name ∧ (name, fn) ∈ unaryFunctions := by
  rw [getElem?_eq_some_iff]
  constructor
  · intro h
    obtain ⟨op, rfl, heq⟩ | ⟨fn', hmem, heq⟩ | ⟨_, _, _, _, heq⟩ | ⟨-, heq⟩ := mem_commands_cases h
    · cases heq
    · cases heq
      exact ⟨rfl, hmem⟩
    · cases heq
    · cases heq
  · rintro ⟨rfl, hmem⟩
    simp only [commands, List.mem_append, List.mem_map]
    exact Or.inl (Or.inl (Or.inr ⟨_, hmem, rfl⟩))

/-- Running the command of an operator is applying the operator, checks included. -/
theorem seen_run_binary (op : BinaryOp) (a b : Value) (w : World) :
    Outcome.seen (registry.run op.symbol [some a, some b] w) =
      Ending.ofExcept (op.apply a b) w.scene := by
  have hop : registry[op.symbol]? = some (.binary op.symbol op.apply) :=
    getElem?_eq_binary_iff.mpr ⟨op, rfl, rfl, rfl⟩
  rw [Registry.run_of_getElem? hop]
  exact Command.seen_run (fun f => Command.broadcast_of_check)
    (Command.seen_execute_binary op.symbol op.apply a b) w

/-- Running the command of a function is applying the function, checks included. -/
theorem seen_run_unary {name symbol : String} {fn : Number → Except Fault Number}
    (h : registry[name]? = some (.unary symbol fn)) (a : Value) (w : World) :
    Outcome.seen (registry.run name [some a] w) = Ending.ofExcept (a.mapNumbers fn) w.scene := by
  rw [Registry.run_of_getElem? h]
  exact Command.seen_run (fun f => Command.mapNumbers_of_check)
    (Command.seen_execute_unary symbol fn a) w

/-- Running a function whose arguments pass the check is computing it. -/
theorem seen_run_function {name : String} {least most : Int} {accepts : List (List Kind)}
    {fn : List (Option Value) → Except Fault (Option Value)} {vs : List (Option Value)}
    (hmem : (name, .function least most accepts fn) ∈ commands)
    (hcheck : (Command.function least most accepts fn).check name vs = .ok ()) (w : World) :
    Outcome.seen (registry.run name vs w) = Outcome.seen (Action.ofExcept (fn vs) w) := by
  rw [Registry.run_of_getElem? (getElem?_of_mem hmem), Command.run, hcheck]
  rfl

/-- Running a built-in operator by its name, the check of its arguments included, gives exactly the
value or the fault of its operation on values and touches neither memory nor console; and that
operation is its operation on numbers, carried over place by place. The operators of the language
are all the binary commands there are. The same holds of all functions of one number. -/
theorem arithmetic_pointwise (w : World) :
    (∀ name symbol fn, registry[name]? = some (.binary symbol fn) ↔
      ∃ op : BinaryOp, name = op.symbol ∧ symbol = op.symbol ∧ fn = op.apply) ∧
    (∀ (op : BinaryOp) (a b : Value),
      Outcome.seen (registry.run op.symbol [some a, some b] w) =
        Ending.ofExcept (op.apply a b) w.scene) ∧
    (∀ op : BinaryOp, Value.Carries op.onNumbers op.apply) ∧
    (∀ name symbol fn, registry[name]? = some (.unary symbol fn) ↔
      symbol = name ∧ (name, fn) ∈ unaryFunctions) ∧
    ∀ name fn, (name, fn) ∈ unaryFunctions →
      (∀ a : Value, Outcome.seen (registry.run name [some a] w) =
        Ending.ofExcept (a.mapNumbers fn) w.scene) ∧
      Value.CarriesUnary fn (Value.mapNumbers fn) := by
  refine ⟨fun _ _ _ => getElem?_eq_binary_iff, fun op a b => seen_run_binary op a b w,
    fun op => Value.carries_broadcast op.onNumbers, fun _ _ _ => getElem?_eq_unary_iff,
    fun name fn hmem => ⟨fun a => ?_, Value.carries_mapNumbers fn⟩⟩
  exact seen_run_unary (getElem?_eq_unary_iff.mpr ⟨rfl, hmem⟩) a w

/-- Lists: negated, of different lengths, and two operands that are none. -/
theorem arithmetic_pointwise_lists :
    let w := World.new ⟨fun _ => .ok "", fun _ _ => none⟩ .trace
    let z := Number.zero
    ("‾", fun z => .ok z.neg) ∈ unaryFunctions ∧
    Outcome.seen (registry.run "‾" [some (.list [z, .one])] w) =
      .ok (some (.list [z.neg, Number.one.neg])) w.scene ∧
    Value.RefusesLengths [z] [z, z] (BinaryOp.divide.apply (.list [z]) (.list [z, z])) ∧
    Value.RefusesString .left "x" (BinaryOp.add.apply (.string "x") (.string "y")) := by
  intro w z
  have hmem : ("‾", fun z => .ok z.neg) ∈ unaryFunctions := by simp [unaryFunctions]
  obtain ⟨-, -, hcarries, -, hunary⟩ := arithmetic_pointwise w
  exact ⟨hmem, (hunary _ _ hmem).1 (.list [z, .one]), (hcarries .divide).lengths (by decide),
    (hcarries .add).left "x" (.string "y")⟩

end Builtin

end Handheld
