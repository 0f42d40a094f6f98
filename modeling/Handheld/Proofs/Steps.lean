import Handheld.Proofs.Contract

/-!
# What one statement can do

Where a program goes after a statement, and with which open blocks, as a short list of cases. The
cases and the contract of a statement are derived together, by the kind of the statement, from the
contract of evaluation and from what the stores of that statement keep.
-/

namespace Handheld

namespace Statement

private theorem isThen_iff (st : Statement) : st.isThen = true ↔ st.instruction = .consequent := by
  unfold isThen
  cases st.instruction <;> simp

/-- A block ends where its rest starts or later. -/
theorem le_of_skip {stopAtElse : Bool} {depth i j : Nat} {ss : List Statement}
    (h : skip stopAtElse depth i ss = .ok j) : i ≤ j := by
  fun_induction skip stopAtElse depth i ss with
  | case1 | case7 | case10 =>
    cases h
    exact Nat.le_refl j
  | case2 =>
    cases h
    exact Nat.le_succ _
  | case3 depth i st test hst t rest hthen ih =>
    have := ih h
    omega
  | case4 | case5 | case6 | case9 | case11 | case12 =>
    rename_i ih
    exact Nat.le_of_succ_le (ih h)
  | case8 => cases h

/-- A block that cannot be skipped has an `Else` in the wrong place. -/
theorem plain_of_skip {stopAtElse : Bool} {depth i : Nat} {ss : List Statement} {f : Fault}
    (h : skip stopAtElse depth i ss = .error f) : f.Plain := by
  fun_induction skip stopAtElse depth i ss with
  | case1 | case2 | case7 | case10 => cases h
  | case3 | case4 | case5 | case6 | case9 | case11 | case12 =>
    rename_i ih
    exact ih h
  | case8 =>
    cases h
    simp [Fault.Plain, Fault.reason, Reason.language]

end Statement

/-- The statement with the index `i` opens such a block. -/
def Block.OpenedAt (ss : List Statement) (i : Nat) : Block → Prop
  | .cond _ => (∃ test, (ss[i]?).map (·.instruction) = some (.cond test)) ∧
      (ss[i + 1]?).map (·.instruction) = some .consequent
  | .whileLoop => ∃ test, (ss[i]?).map (·.instruction) = some (.whileLoop test)
  | .repeatLoop test => (ss[i]?).map (·.instruction) = some (.repeatLoop test)

namespace Place

/-- Where a program can be after the statement at this place. Only the `End` of a loop leads
back. -/
inductive Leads (p : Place) : Progress → Prop
  /-- It is over, and with it those that called it. -/
  | stopped (h : (p.statements[p.index]?).map (·.instruction) = some .stop) : Leads p (.done .stop)
  /-- It is over. -/
  | returned (h : (p.statements[p.index]?).map (·.instruction) = some .ret) : Leads p (.done .ret)
  /-- It goes on further down. -/
  | onward {j : Nat} (h : p.index < j) : Leads p (.next j p.frames)
  /-- It is inside one block more. -/
  | opened {block : Block} {j : Nat} (hblock : block.OpenedAt p.statements p.index)
      (h : p.index < j) : Leads p (.next j (⟨block, p.index⟩ :: p.frames))
  /-- It has left the innermost block. -/
  | closed {f : Frame} {outer : List Frame} {j : Nat} (hframes : p.frames = f :: outer)
      (h : p.index < j) : Leads p (.next j outer)
  /-- It goes back to the condition of a `While`, outside of the loop. -/
  | retested {f : Frame} {outer : List Frame} (hframes : p.frames = f :: outer)
      (hblock : f.block = .whileLoop) : Leads p (.next f.header outer)
  /-- It goes back to the body of a `Repeat`, inside of the loop. -/
  | repeated {f : Frame} {outer : List Frame} {test : Expr} (hframes : p.frames = f :: outer)
      (hblock : f.block = .repeatLoop test) : Leads p (.next (f.header + 1) (f :: outer))

private theorem leads_advance (p : Place) : p.Leads p.advance := .onward (Nat.lt_succ_self p.index)

/-- The next statement is `Then` exactly if its instruction is. -/
theorem beforeThen_iff (p : Place) :
    p.beforeThen = true ↔ (p.statements[p.index + 1]?).map (·.instruction) = some .consequent := by
  unfold beforeThen
  cases p.statements[p.index + 1]? with
  | none => simp
  | some st => simp [Statement.isThen_iff]

/-- A block that is passed over ends behind its header. -/
private theorem lt_of_skip {p : Place} {n j : Nat} {stopAtElse : Bool}
    (h : p.skip n stopAtElse = .ok j) : p.index < j + 1 := by
  have := Statement.le_of_skip h
  omega

end Place

namespace Instruction

/-- Every function that the instruction calls satisfies `P`. -/
def Calls (P : String → Prop) : Instruction → Prop
  | cond e | whileLoop e | repeatLoop e | expression e _ => e.Calls P
  | display es => Expr.CallsAll P es
  | consequent | alternative | blockEnd | stop | ret | input _ _ | prompt _ | call _ => True

/-- The variables that the instruction stores values in. -/
def targets : Instruction → List Target
  | input _ t => [t]
  | prompt ts => ts
  | expression _ target => target.toList
  | cond _ | consequent | alternative | whileLoop _ | repeatLoop _ | blockEnd | stop | ret
  | display _ | call _ => []

end Instruction

/-- A computation that fails does so in its first part or after it. -/
theorem Except.bind_error {α β ε : Type} {x : Except ε α} {k : α → Except ε β} {e : ε}
    (h : x >>= k = .error e) : x = .error e ∨ ∃ a, x = .ok a ∧ k a = .error e := by
  cases x with
  | error e' =>
    cases h
    exact .inl rfl
  | ok a => exact .inr ⟨a, rfl, h⟩

private theorem Except.mapError_error {α δ ε : Type} {x : Except δ α} {g : δ → ε} {e : ε}
    (h : x.mapError g = .error e) : ∃ d, g d = e := by
  cases x with
  | error d => exact ⟨d, Except.error.inj h⟩
  | ok a => cases h

namespace Program

/-- What cannot be normalized has a plain fault. -/
theorem plain_of_normalizedTokens {text : String} {f : Fault}
    (h : normalizedTokens text = .error f) : f.Plain := by
  rcases Except.bind_error h with h | ⟨normal, -, h⟩
  · rcases Except.bind_error h with h | ⟨ts, -, h⟩
    · obtain ⟨g, rfl⟩ := Except.mapError_error h
      simp [Fault.Plain, Fault.reason, Reason.language]
    · rcases Except.bind_error h with h | ⟨out, -, h⟩
      · obtain ⟨g, rfl⟩ := Except.mapError_error h
        simp [Fault.Plain, Fault.reason, Reason.language]
      · cases h
  · obtain ⟨g, rfl⟩ := Except.mapError_error h
    simp [Fault.Plain, Fault.reason, Reason.language]

/-- What is no program has a plain fault. -/
theorem plain_of_parse {name text : String} {f : Fault} (h : parse name text = .error f) :
    f.Plain := by
  rcases Except.bind_error h with h | ⟨ts, -, h⟩
  · exact plain_of_normalizedTokens h
  · rcases Except.bind_error h with h | ⟨ss, -, h⟩
    · obtain ⟨g, rfl⟩ := Except.mapError_error h
      simp [Fault.Plain, Fault.reason, Reason.language]
    · cases h

/-- What is no expression has a plain fault. -/
theorem plain_of_parseExpression {text : String} {f : Fault}
    (h : parseExpression text = .error f) : f.Plain := by
  rcases Except.bind_error h with h | ⟨ts, -, h⟩
  · exact plain_of_normalizedTokens h
  · obtain ⟨g, rfl⟩ := Except.mapError_error h
    simp [Fault.Plain, Fault.reason, Reason.language]

end Program

/-- Shows a text and reads a value. -/
def ask (r : Registry) (text : String) : Action (Option Value) := do
  Action.print text .promptFailed
  let line ← Action.read
  Expr.evalText r line

/-- Reading into a variable asks for a value and stores it. -/
theorem readInto_eq (r : Registry) (text : String) (t : Target) :
    readInto r text t = ask r text >>= fun v => Action.store v t := by
  simp only [readInto, ask, bind_assoc]

/-- What makes every statement keep `I` and fail with faults in `R` only, besides what its stores
keep. -/
structure Place.Rules (r : Registry) (known : String → Prop) (I : World → Prop)
    (Q : Option Value → Prop) (R : Fault → Prop) : Prop extends Expr.Rules r known I Q R where
  lasting : World.Lasting I
  display : known Builtin.displayName
  text : ∀ text e, Program.parseExpression text = .ok e → e.Calls known

namespace Place.Rules

variable {r : Registry} {known : String → Prop} {I : World → Prop} {Q : Option Value → Prop}
  {R : Fault → Prop}

/-- Evaluating a text keeps what evaluation keeps. -/
private theorem keeps_evalText (h : Place.Rules r known I Q R) (text : String) :
    (Expr.evalText r text).Keeps I Q R := by
  refine (Action.keeps_ofExcept (h.text text) fun f hf => ?_).bind fun e he => h.keeps_eval e he
  exact h.language f (Program.plain_of_parseExpression hf)

/-- Asking for a value does what its evaluation does. -/
theorem keeps_ask (h : Place.Rules r known I Q R) (text : String) : (ask r text).Keeps I Q R := by
  have hprint := Action.keeps_print (R := R) h.lasting text .promptFailed fun cause =>
    h.language _ (by simp [Fault.Plain, Fault.reason, Reason.language])
  have hread := Action.keeps_read (R := R) h.lasting
    (h.language _ (by simp [Fault.Plain, Fault.reason, Reason.language]))
    fun cause => h.language _ (by simp [Fault.Plain, Fault.reason, Reason.language])
  exact hprint.bind fun _ _ => hread.bind fun line _ => h.keeps_evalText line

/-- Reading into a variable keeps what its store keeps. -/
theorem keeps_readInto (h : Place.Rules r known I Q R) (text : String) {t : Target}
    (hstore : ∀ v, Q v → (Action.store v t).Keeps I (fun _ => True) R) :
    (readInto r text t).Keeps I (fun _ => True) R := by
  rw [readInto_eq]
  exact (h.keeps_ask text).bind hstore

/-- Prompting keeps what the stores to its targets keep. -/
theorem keeps_promptAll (h : Place.Rules r known I Q R) {ts : List Target}
    (hstore : ∀ t ∈ ts, ∀ v, Q v → (Action.store v t).Keeps I (fun _ => True) R) :
    (promptAll r ts).Keeps I (fun _ => True) R := by
  induction ts with
  | nil => exact Action.keeps_pure trivial
  | cons t ts ih =>
    refine (h.keeps_readInto _ (hstore t (List.mem_cons_self ..))).bind fun _ _ => ih ?_
    exact fun t ht => hstore t (List.mem_cons_of_mem _ ht)

private theorem keeps_skip (h : Place.Rules r known I Q R) (p : Place) (n : Nat)
    (stopAtElse : Bool) :
    (Action.ofExcept (p.skip n stopAtElse)).Keeps I (fun i => p.index < i + 1) R := by
  refine Action.keeps_ofExcept (fun i hi => Place.lt_of_skip hi) fun f hf => h.language f ?_
  exact Statement.plain_of_skip hf

private theorem keeps_control (h : Place.Rules r known I Q R) (fault : ControlFault)
    (pos : Position)
    {S : Progress → Prop} : (throw (.control fault pos) : Action Progress).Keeps I S R :=
  Action.keeps_throw (h.language _ (by simp [Fault.Plain, Fault.reason, Reason.language]))

/-- `If` keeps what its condition keeps, and leads onward, into its block or behind it. -/
private theorem keeps_runCond (h : Place.Rules r known I Q R) {p : Place} {test : Expr}
    (htest : test.Calls known)
    (hst : (p.statements[p.index]?).map (·.instruction) = some (.cond test)) :
    (p.runCond r test).Keeps I p.Leads R := by
  refine (h.keeps_test test htest).bind fun holds _ => ?_
  refine Action.Keeps.ite (fun hthen => ?_) fun _ => ?_
  · have hopened (inElse : Bool) : (Block.cond inElse).OpenedAt p.statements p.index :=
      ⟨⟨test, hst⟩, p.beforeThen_iff.mp hthen⟩
    refine Action.Keeps.ite (fun _ => ?_) fun _ => ?_
    · exact Action.keeps_pure (.opened (hopened false) (by omega))
    · refine (h.keeps_skip p 2 true).bind fun i hi => ?_
      refine Action.Keeps.ite (fun _ => ?_) fun _ => ?_
      · exact Action.keeps_pure (.opened (hopened true) hi)
      · exact Action.keeps_pure (.onward hi)
  · refine Action.Keeps.ite (fun _ => ?_) fun _ => ?_
    · exact Action.keeps_pure p.leads_advance
    · exact Action.keeps_pure (.onward (by omega))

private theorem keeps_runElse (h : Place.Rules r known I Q R) (p : Place) (pos : Position) :
    (p.runElse pos).Keeps I p.Leads R := by
  unfold Place.runElse
  split
  · next header outer hframes =>
    exact (h.keeps_skip p 1 false).bind fun i hi => Action.keeps_pure (.closed hframes hi)
  · exact h.keeps_control _ _

/-- `While` keeps what its condition keeps, and leads into its block or behind it. -/
private theorem keeps_runWhile (h : Place.Rules r known I Q R) {p : Place} {test : Expr}
    (pos : Position) (htest : test.Calls known)
    (hst : (p.statements[p.index]?).map (·.instruction) = some (.whileLoop test)) :
    (p.runWhile r test pos).Keeps I p.Leads R := by
  refine Action.Keeps.ite (fun _ => h.keeps_control _ _) fun _ => ?_
  refine (h.keeps_test test htest).bind fun holds _ => ?_
  refine Action.Keeps.ite (fun _ => ?_) fun _ => ?_
  · exact Action.keeps_pure (.opened ⟨test, hst⟩ (by omega))
  · exact (h.keeps_skip p 1 false).bind fun i hi => Action.keeps_pure (.onward hi)

private theorem keeps_runRepeat (h : Place.Rules r known I Q R) {p : Place} {test : Expr}
    (pos : Position)
    (hst : (p.statements[p.index]?).map (·.instruction) = some (.repeatLoop test)) :
    (p.runRepeat test pos).Keeps I p.Leads R := by
  refine Action.Keeps.ite (fun _ => h.keeps_control _ _) fun _ => ?_
  exact Action.keeps_pure (.opened hst (by omega))

/-- `End` keeps what the condition of a `Repeat` keeps; it is the one statement that leads back. -/
private theorem keeps_runEnd (h : Place.Rules r known I Q R) {p : Place} (pos : Position)
    (hframes : ∀ f ∈ p.frames, ∀ test, f.block = .repeatLoop test → test.Calls known) :
    (p.runEnd r pos).Keeps I p.Leads R := by
  unfold Place.runEnd
  split
  · exact h.keeps_control _ _
  · next f outer hcons =>
    split
    · exact Action.keeps_pure (.closed hcons (by omega))
    · next hblock => exact Action.keeps_pure (.retested hcons hblock)
    · next test hblock =>
      have htest : test.Calls known := hframes f (hcons ▸ List.mem_cons_self ..) test hblock
      refine (h.keeps_test test htest).bind fun holds _ => ?_
      refine Action.Keeps.ite (fun _ => ?_) fun _ => ?_
      · exact Action.keeps_pure (.closed hcons (by omega))
      · exact Action.keeps_pure (.repeated hcons hblock)

/-- A statement keeps what its stores keep, and leads where it can. -/
theorem keeps_step (h : Place.Rules r known I Q R) {p : Place} {st : Statement} (program : String)
    (hst : p.statements[p.index]? = some st) (hcalls : st.instruction.Calls known)
    (hframes : ∀ f ∈ p.frames, ∀ test, f.block = .repeatLoop test → test.Calls known)
    (hstore : ∀ t ∈ st.instruction.targets, ∀ v, Q v →
      (Action.store v t).Keeps I (fun _ => True) R)
    (hans : ∀ e target, st.instruction = .expression e target → ∀ v, Q v →
      (Action.setAns v).Keeps I (fun _ => True) R) :
    (p.step r program st).Keeps I p.Leads R := by
  have hinstruction : (p.statements[p.index]?).map (·.instruction) = some st.instruction := by
    rw [hst]
    rfl
  have hadvance : (pure p.advance : Action Progress).Keeps I p.Leads R :=
    Action.keeps_pure p.leads_advance
  unfold Place.step
  generalize st.instruction = instruction at hcalls hstore hans hinstruction
  cases instruction with
  | cond test => exact h.keeps_runCond hcalls hinstruction
  | consequent => exact h.keeps_control _ _
  | alternative => exact h.keeps_runElse p _
  | whileLoop test => exact h.keeps_runWhile _ hcalls hinstruction
  | repeatLoop test => exact h.keeps_runRepeat _ hinstruction
  | blockEnd => exact h.keeps_runEnd _ hframes
  | stop =>
    exact (Action.keeps_record h.lasting _).bind fun _ _ => Action.keeps_pure (.stopped hinstruction)
  | ret => exact Action.keeps_pure (.returned hinstruction)
  | display es =>
    refine (h.keeps_evalAll es hcalls).bind fun vs hvs => ?_
    exact (h.run _ vs h.display hvs).bind fun _ _ => hadvance
  | input text t =>
    have ht : t ∈ (Instruction.input text t).targets := by simp [Instruction.targets]
    exact (h.keeps_readInto text (hstore t ht)).bind fun _ _ => hadvance
  | prompt ts => exact (h.keeps_promptAll hstore).bind fun _ _ => hadvance
  | call name => exact hadvance
  | expression e target =>
    refine (h.keeps_eval e hcalls).bind fun v hv => ?_
    cases target with
    | none => exact (hans e none rfl v hv).bind fun _ _ => hadvance
    | some t =>
      refine (hstore t (by simp [Instruction.targets]) v hv).bind fun _ _ => ?_
      exact (hans e (some t) rfl v hv).bind fun _ _ => hadvance

/-- Whatever the commands are, only a store writes variables. -/
theorem of_lasting (hI : World.Lasting I) (r : Registry) :
    Place.Rules r (fun _ => True) I (fun _ => True) fun _ => True :=
  ⟨.of_lasting hI r, hI, trivial, fun _ e _ => e.calls_true⟩

end Place.Rules

/-- What holds of all functions that an instruction calls holds of them if it is weakened. -/
theorem Instruction.Calls.mono {P P' : String → Prop} (hP : ∀ f, P f → P' f) {i : Instruction}
    (h : i.Calls P) : i.Calls P' := by
  cases i with
  | cond e | whileLoop e | repeatLoop e | expression e target => exact Expr.Calls.mono hP (e := e) h
  | display es => exact Expr.CallsAll.mono hP h
  | _ => trivial

/-- Of the functions that an instruction calls nothing need be asked. -/
theorem Instruction.calls_true (i : Instruction) : i.Calls fun _ => True := by
  cases i with
  | cond e | whileLoop e | repeatLoop e | expression e target => exact e.calls_true
  | display es => exact Expr.callsAll_true es
  | _ => trivial

/-- A statement that does not fail leads where it can, whatever the commands are. -/
theorem Place.leads_of_step {p : Place} {r : Registry} {program : String} {st : Statement}
    {s s' : Scene} {progress : Progress} (hst : p.statements[p.index]? = some st)
    (h : (p.step r program st).onScene s = .ok progress s') : p.Leads progress := by
  have hany {α : Type} (a : Action α) :
      a.Keeps (fun _ => True) (fun _ => True) fun _ => True := by
    intro w _
    cases a w <;> exact ⟨trivial, trivial⟩
  have hrules := Place.Rules.of_lasting (I := fun _ => True)
    ⟨fun _ _ _ => trivial, fun _ _ _ _ => trivial⟩ r
  have hkeeps := hrules.keeps_step program hst st.instruction.calls_true
    (fun _ _ test _ => test.calls_true) (fun _ _ _ _ => hany _) fun _ _ _ _ _ => hany _
  have hscene := hkeeps.onScene (S := fun _ => True) (s := s) trivial
  rw [h] at hscene
  exact hscene.2

end Handheld
