import Handheld.Proofs.Scene

/-!
# What actions keep

A contract of an action names a property of the world that the action keeps whether it succeeds or
fails, what holds of its results, and what holds of its faults. Contracts of actions in a row follow
from those of the parts. The contract of evaluation is derived once, by recursion on the expression,
from what the commands do and what the memory holds; evaluation itself writes no variable.
-/

namespace Handheld

namespace Console

/-- The console at a later time: with the same device, and with everything that was printed. -/
structure Grows (k k' : Console) : Prop where
  device : k'.device = k.device
  printed : k.printed.toList <+: k'.printed.toList

theorem Grows.refl (k : Console) : k.Grows k := ⟨rfl, List.prefix_rfl⟩

/-- What has grown twice has grown. -/
theorem Grows.trans {k k' k'' : Console} (h : k.Grows k') (h' : k'.Grows k'') : k.Grows k'' :=
  ⟨h'.device.trans h.device, h.printed.trans h'.printed⟩

/-- Reading a line leaves what was printed. -/
private theorem grows_read (k : Console) : k.Grows k.read.2 := ⟨rfl, List.prefix_rfl⟩

/-- Printing a line leaves what was printed before. -/
private theorem grows_print (k : Console) (line : String) : k.Grows (k.print line).2 := by
  unfold print
  split
  · exact ⟨rfl, List.prefix_rfl⟩
  · refine ⟨rfl, ?_⟩
    rw [Array.toList_push]
    exact List.prefix_append _ _

end Console

namespace World

/-- A property that outlasts what happens to the log and on the console. -/
structure Lasting (I : World → Prop) : Prop where
  record : ∀ w e, I w → I (w.record e)
  console : ∀ w k, w.console.Grows k → I w → I { w with console := k }

end World

namespace Action

variable {α β : Type} {I : World → Prop} {Q : α → Prop} {S : β → Prop} {R : Fault → Prop}

/-- The action keeps `I`; its results satisfy `Q`, and its faults `R`. -/
def Keeps (I : World → Prop) (a : Action α) (Q : α → Prop) (R : Fault → Prop) : Prop :=
  ∀ w, I w →
    match a w with
    | .ok x v => I v ∧ Q x
    | .error f v => I v ∧ R f

/-- What an action keeps holds after it has given a result, which is as promised. -/
theorem Keeps.of_ok {a : Action α} (h : Keeps I a Q R) {w v : World} {x : α} (hw : I w)
    (hrun : a w = .ok x v) : I v ∧ Q x := by
  have := h w hw
  rwa [hrun] at this

/-- What an action keeps holds after it has failed, with a fault as promised. -/
theorem Keeps.of_error {a : Action α} (h : Keeps I a Q R) {w v : World} {f : Fault} (hw : I w)
    (hrun : a w = .error f v) : I v ∧ R f := by
  have := h w hw
  rwa [hrun] at this

/-- A contract about scenes can be followed on scenes. -/
theorem Keeps.onScene {S : Scene → Prop} {a : Action α} (h : Keeps (fun w => S w.scene) a Q R)
    {s : Scene} (hs : S s) :
    match a.onScene s with
    | .ok x s' => S s' ∧ Q x
    | .error f s' => S s' ∧ R f := by
  have hworld := h s.world hs
  unfold Action.onScene
  cases hrun : a s.world with
  | ok x w => rwa [hrun] at hworld
  | error f w => rwa [hrun] at hworld

/-- A result that is as promised keeps everything. -/
theorem keeps_pure {x : α} (h : Q x) : Keeps I (pure x) Q R := fun _ hw => ⟨hw, h⟩

/-- A fault that is as promised keeps everything. -/
theorem keeps_throw {f : Fault} (h : R f) : Keeps I (throw f) Q R := fun _ hw => ⟨hw, h⟩

/-- A computation keeps everything. -/
theorem keeps_ofExcept {x : Except Fault α} (hok : ∀ a, x = .ok a → Q a)
    (herror : ∀ f, x = .error f → R f) : Keeps I (ofExcept x) Q R := by
  cases x with
  | ok a => exact keeps_pure (hok a rfl)
  | error f => exact keeps_throw (herror f rfl)

/-- Actions in a row keep what each of them keeps. -/
theorem Keeps.bind {a : Action α} {f : α → Action β} (ha : Keeps I a Q R)
    (hf : ∀ x, Q x → Keeps I (f x) S R) : Keeps I (a >>= f) S R := by
  intro w hw
  change match EStateM.bind a f w with
    | .ok x v => I v ∧ S x
    | .error f v => I v ∧ R f
  unfold EStateM.bind
  cases hrun : a w with
  | error g v => exact ha.of_error hw hrun
  | ok x v =>
    obtain ⟨hv, hx⟩ := ha.of_ok hw hrun
    exact hf x hx v hv

/-- After reading the world, the action may rely on what holds of it. -/
theorem keeps_get_bind {f : World → Action β} (hf : ∀ w, I w → Keeps I (f w) S R) :
    Keeps I (get >>= f) S R := fun w hw => hf w hw w hw

/-- A choice keeps what both sides keep. -/
theorem Keeps.ite {p : Prop} [Decidable p] {a b : Action α} (ha : p → Keeps I a Q R)
    (hb : ¬ p → Keeps I b Q R) : Keeps I (if p then a else b) Q R := by
  split
  · next h => exact ha h
  · next h => exact hb h

/-- An action promises whatever follows from its promises. -/
theorem Keeps.mono {Q' : α → Prop} {R' : Fault → Prop} {a : Action α} (h : Keeps I a Q R)
    (hQ : ∀ x, Q x → Q' x) (hR : ∀ f, R f → R' f) : Keeps I a Q' R' := by
  intro w hw
  cases hrun : a w with
  | ok x v => exact (h.of_ok hw hrun).imp_right (hQ x)
  | error f v => exact (h.of_error hw hrun).imp_right (hR f)

/-- Recording keeps what lasts. -/
theorem keeps_record (hI : World.Lasting I) (e : Event) :
    Keeps I (record e) (fun _ => True) R := fun w hw => ⟨hI.record w e hw, trivial⟩

/-- Printing keeps what lasts, and fails only as it says. -/
theorem keeps_print (hI : World.Lasting I) (line : String) (fault : String → Fault)
    (hR : ∀ cause, R (fault cause)) : Keeps I (print line fault) (fun _ => True) R := by
  intro w hw
  have hgrows := w.console.grows_print line
  unfold print
  generalize w.console.print line = answer at hgrows ⊢
  obtain ⟨_ | cause, k⟩ := answer
  · exact ⟨hI.console w k hgrows hw, trivial⟩
  · exact ⟨hI.console w k hgrows hw, hR cause⟩

/-- Reading keeps what lasts, and fails only at the end of the input or with its device. -/
theorem keeps_read (hI : World.Lasting I) (hclosed : R .inputClosed)
    (hfailed : ∀ cause, R (.inputFailed cause)) : Keeps I read (fun _ => True) R := by
  intro w hw
  have hgrows := w.console.grows_read
  unfold read
  generalize w.console.read = answer at hgrows ⊢
  obtain ⟨(_ | cause) | line, k⟩ := answer
  · exact ⟨hI.console w k hgrows hw, hclosed⟩
  · exact ⟨hI.console w k hgrows hw, hfailed cause⟩
  · exact ⟨hI.console w k hgrows hw, trivial⟩

end Action

namespace Command

variable {I : World → Prop} {R : Fault → Prop}

/-- Displaying keeps what lasts; only a value that is missing is unchecked. -/
theorem keeps_displayAll (hI : World.Lasting I) {vs : List (Option Value)}
    (hmissing : none ∈ vs → R .unchecked)
    (hfailed : ∀ shown cause, R (.displayFailed shown cause)) :
    (displayAll vs).Keeps I (fun _ => True) R := by
  induction vs with
  | nil => exact Action.keeps_pure trivial
  | cons v vs ih =>
    cases v with
    | none => exact Action.keeps_throw (hmissing (List.mem_cons_self ..))
    | some v =>
      exact (Action.keeps_print hI _ _ (hfailed v.text)).bind fun _ _ =>
        ih fun h => hmissing (List.mem_cons_of_mem _ h)

/-- A command writes to the log, and to the console only if it is `Disp`. -/
theorem keeps_run_of_record {c : Command} (hrecord : ∀ w e, I w → I (w.record e))
    (hdisplay : c = display → World.Lasting I) (name : String) (vs : List (Option Value)) :
    (c.run name vs).Keeps I (fun _ => True) fun _ => True := by
  have hexcept {α : Type} (x : Except Fault α) :
      (Action.ofExcept x).Keeps I (fun _ => True) fun _ => True :=
    Action.keeps_ofExcept (fun _ _ => trivial) fun _ _ => trivial
  have hevent (e : Event) : (Action.record e).Keeps I (fun _ => True) fun _ => True :=
    fun w hw => ⟨hrecord w e hw, trivial⟩
  unfold run
  split
  · exact (hevent _).bind fun _ _ => Action.keeps_throw trivial
  · unfold execute
    split
    · refine (hexcept _).bind fun _ _ => (hexcept _).bind fun _ _ => ?_
      exact (hevent _).bind fun _ _ => Action.keeps_pure trivial
    · refine (hexcept _).bind fun _ _ => ?_
      exact (hevent _).bind fun _ _ => Action.keeps_pure trivial
    · exact hexcept _
    · have hI := hdisplay rfl
      refine (keeps_displayAll hI (fun _ => trivial) fun _ _ => trivial).bind fun _ _ => ?_
      exact Action.keeps_pure trivial
    · exact Action.keeps_throw trivial

/-- A command writes no variable, whichever it is. -/
theorem keeps_run (hI : World.Lasting I) (c : Command) (name : String)
    (vs : List (Option Value)) : (c.run name vs).Keeps I (fun _ => True) fun _ => True :=
  keeps_run_of_record hI.record (fun _ => hI) name vs

end Command

/-- Any command, known or not, keeps what lasts. -/
private theorem Registry.keeps_run {I : World → Prop} (hI : World.Lasting I) (r : Registry)
    (name : String)
    (vs : List (Option Value)) : (r.run name vs).Keeps I (fun _ => True) fun _ => True := by
  unfold Registry.run
  split
  · exact Action.keeps_throw trivial
  · exact Command.keeps_run hI _ name vs

/-- The reasons of faults that a user is told of, and that end neither a session nor anything else
but the run in which they occur. -/
def Reason.language : List Reason :=
  [.syntaxError, .normalization, .argument, .kind, .domain, .controlFlow, .undefined, .system]

/-- The fault has such a reason, and does not come from programs that call each other too deeply. -/
def Fault.Plain (f : Fault) : Prop :=
  f.reason ∈ Reason.language ∧ ∀ limit, f ≠ .callDepth limit

namespace Expr

mutual

/-- Every function that the expression calls satisfies `P`. -/
def Calls (P : String → Prop) : Expr → Prop
  | number _ _ | string _ _ | var _ _ | listVar _ _ | ans _ => True
  | list es _ => CallsAll P es
  | unary _ x _ => x.Calls P
  | binary _ x y _ => x.Calls P ∧ y.Calls P
  | call f es _ => P f ∧ CallsAll P es

/-- Every function that some expressions call satisfies `P`. -/
def CallsAll (P : String → Prop) : List Expr → Prop
  | [] => True
  | e :: es => e.Calls P ∧ CallsAll P es

end

mutual

/-- What holds of all functions that are called holds of them if it is weakened. -/
theorem Calls.mono {P P' : String → Prop} (hP : ∀ f, P f → P' f) {e : Expr} (h : e.Calls P) :
    e.Calls P' := by
  cases e with
  | number z p | string s p | var c p | listVar n p | ans p => trivial
  | list es p => exact CallsAll.mono hP h
  | unary op x p => exact Calls.mono hP (e := x) h
  | binary op x y p => exact ⟨Calls.mono hP h.1, Calls.mono hP h.2⟩
  | call f es p => exact ⟨hP f h.1, CallsAll.mono hP h.2⟩

theorem CallsAll.mono {P P' : String → Prop} (hP : ∀ f, P f → P' f) {es : List Expr}
    (h : CallsAll P es) : CallsAll P' es := by
  cases es with
  | nil => trivial
  | cons e es => exact ⟨Calls.mono hP h.1, CallsAll.mono hP h.2⟩

end

/-- What makes every evaluation keep `I`, give values with `Q` only and fail with faults in `R`
only: the commands whose names are `known` do so, and what is stored has `Q`. -/
structure Rules (r : Registry) (known : String → Prop) (I : World → Prop) (Q : Option Value → Prop)
    (R : Fault → Prop) : Prop where
  number : ∀ z, Q (some (.number z))
  string : ∀ s, Q (some (.string s))
  list : ∀ zs, zs.length ≤ Value.maxListLength → Q (some (.list zs))
  ans : ∀ w, I w → Q w.memory.ans
  stored : ∀ w n zs, I w → w.memory.list n = .ok zs → Q (some (.list zs))
  unary : ∀ op : UnaryOp, known op.symbol
  binary : ∀ op : BinaryOp, known op.symbol
  run : ∀ name vs, known name → (∀ v ∈ vs, Q v) →
    (r.run name vs).Keeps I (fun v => v.isSome → Q v) R
  language : ∀ f : Fault, f.Plain → R f

namespace Rules

variable {r : Registry} {known : String → Prop} {I : World → Prop} {Q : Option Value → Prop}
  {R : Fault → Prop}

/-- An expression that has to give a value gives one that is as promised. -/
private theorem keeps_produce (h : Rules r known I Q R) (e : Expr) {a : Action (Option Value)}
    (ha : a.Keeps I (fun v => v.isSome → Q v) R) : (produce e a).Keeps I Q R := by
  refine ha.bind fun v hv => ?_
  cases v with
  | none => exact Action.keeps_throw (h.language _ (by simp [Fault.Plain, Fault.reason, Reason.language]))
  | some v => exact Action.keeps_pure (hv rfl)

mutual

/-- Evaluation does what the commands do. -/
theorem keeps_eval (h : Rules r known I Q R) (e : Expr) (he : e.Calls known) :
    (e.eval r).Keeps I Q R := by
  cases e with
  | number z p => rw [eval]; exact Action.keeps_pure (h.number z)
  | string s p => rw [eval]; exact Action.keeps_pure (h.string s)
  | var c p =>
    rw [eval]
    exact Action.keeps_get_bind fun w _ => Action.keeps_pure (h.number _)
  | listVar n p =>
    rw [eval]
    refine Action.keeps_get_bind fun w hw => ?_
    refine (Action.keeps_ofExcept (Q := fun zs => Q (some (.list zs))) (fun zs hzs => ?_)
      fun f hf => ?_).bind fun zs hzs => Action.keeps_pure hzs
    · exact h.stored w n zs hw hzs
    · unfold Memory.list at hf
      split at hf
      · cases hf
      · cases hf
        exact h.language _ (by simp [Fault.Plain, Fault.reason, Reason.language])
  | ans p =>
    rw [eval]
    exact Action.keeps_get_bind fun w hw => Action.keeps_pure (h.ans w hw)
  | list es p =>
    rw [eval]
    refine Action.Keeps.ite (fun _ => ?_) fun hlength => ?_
    · exact Action.keeps_throw (h.language _ (by simp [Fault.Plain, Fault.reason, Reason.language]))
    · refine (keeps_evalElements h es he).bind fun zs hzs => Action.keeps_pure (h.list zs ?_)
      omega
  | unary op x p =>
    rw [eval]
    refine (keeps_eval h x he).bind fun v hv => h.keeps_produce _ (h.run _ _ (h.unary op) ?_)
    simpa using hv
  | binary op x y p =>
    rw [eval]
    refine (keeps_eval h x he.1).bind fun v hv => (keeps_eval h y he.2).bind fun v' hv' => ?_
    exact h.keeps_produce _ (h.run _ _ (h.binary op) (by simp [hv, hv']))
  | call f es p =>
    rw [eval]
    exact (keeps_evalAll h es he.2).bind fun vs hvs => h.keeps_produce _ (h.run f vs he.1 hvs)

/-- Several expressions give values that are all as promised. -/
theorem keeps_evalAll (h : Rules r known I Q R) (es : List Expr) (hes : CallsAll known es) :
    (evalAll r es).Keeps I (fun vs => ∀ v ∈ vs, Q v) R := by
  cases es with
  | nil => rw [evalAll]; exact Action.keeps_pure (by simp)
  | cons e es =>
    rw [evalAll]
    refine (keeps_eval h e hes.1).bind fun v hv => (keeps_evalAll h es hes.2).bind fun vs hvs => ?_
    exact Action.keeps_pure (List.forall_mem_cons.mpr ⟨hv, hvs⟩)

/-- A list literal has as many elements as are written. -/
theorem keeps_evalElements (h : Rules r known I Q R) (es : List Expr) (hes : CallsAll known es) :
    (evalElements r es).Keeps I (fun zs => zs.length = es.length) R := by
  cases es with
  | nil => rw [evalElements]; exact Action.keeps_pure rfl
  | cons e es =>
    rw [evalElements]
    refine (keeps_eval h e hes.1).bind fun v _ => ?_
    split
    · refine (keeps_evalElements h es hes.2).bind fun zs hzs => Action.keeps_pure ?_
      simpa using hzs
    · exact Action.keeps_throw (h.language _ (by simp [Fault.Plain, Fault.reason, Reason.language]))

end

/-- The test of a condition does what evaluation does. -/
theorem keeps_test (h : Rules r known I Q R) (e : Expr) (he : e.Calls known) :
    (e.test r).Keeps I (fun _ => True) R := by
  refine (h.keeps_eval e he).bind fun v _ => Action.keeps_ofExcept (fun _ _ => trivial) ?_
  intro f hf
  unfold Value.truth at hf
  split at hf
  · cases hf
  · cases hf
    exact h.language _ (by simp [Fault.Plain, Fault.reason, Reason.language])

/-- Whatever the commands are, evaluation writes no variable. -/
theorem of_lasting (hI : World.Lasting I) (r : Registry) :
    Rules r (fun _ => True) I (fun _ => True) fun _ => True where
  number _ := trivial
  string _ := trivial
  list _ _ := trivial
  ans _ _ := trivial
  stored _ _ _ _ _ := trivial
  unary _ := trivial
  binary _ := trivial
  run name vs _ _ := (Registry.keeps_run hI r name vs).mono (fun _ _ _ => trivial) fun _ h => h
  language _ _ := trivial

end Rules

mutual

/-- Of the functions that an expression calls nothing need be asked. -/
theorem calls_true (e : Expr) : e.Calls fun _ => True := by
  cases e with
  | number z p | string s p | var c p | listVar n p | ans p => trivial
  | list es p => exact callsAll_true es
  | unary op x p => exact calls_true x
  | binary op x y p => exact ⟨calls_true x, calls_true y⟩
  | call f es p => exact ⟨trivial, callsAll_true es⟩

theorem callsAll_true (es : List Expr) : CallsAll (fun _ => True) es := by
  cases es with
  | nil => trivial
  | cons e es => exact ⟨calls_true e, callsAll_true es⟩

end

end Expr

end Handheld
