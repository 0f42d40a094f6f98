import Handheld.Proofs.Structured

/-!
# Structured programs run as their trees say

The interpreter finds its way through the flat list of a structured program with a program counter,
the open blocks and a scan for the end of a block. Each word of the list does to these what the
tree says: the scan passes exactly over a block, and at the end of a block the same blocks are open
as at its start. So a structured program ends in some way exactly if its tree does.
-/

namespace Handheld

/-- The statements stand in the program from the index `i` on. -/
def At (p : Program) (i : Nat) (ss : List Statement) : Prop := ss <+: p.statements.drop i

namespace At

variable {p : Program} {i : Nat} {st : Statement} {ss rest : List Statement}

/-- The first of the statements stands at the index. -/
theorem head (h : At p i (st :: ss)) : p.statements[i]? = some st := by
  obtain ⟨post, hpost⟩ := h
  rw [← List.head?_drop, ← hpost]
  rfl

/-- The first of two parts stands at the index. -/
theorem left (h : At p i (ss ++ rest)) : At p i ss := (List.prefix_append ss rest).trans h

/-- The second of two parts stands behind the first. -/
theorem right (h : At p i (ss ++ rest)) : At p (i + ss.length) rest := by
  obtain ⟨post, hpost⟩ := h
  refine ⟨post, ?_⟩
  rw [← List.drop_drop, ← hpost, List.append_assoc, List.drop_left]

/-- All but the first of the statements stand at the next index. -/
theorem tail (h : At p i (st :: ss)) : At p (i + 1) ss := by
  have h : At p i ([st] ++ ss) := h
  exact h.right

/-- The next statement of the program, where it is known. -/
theorem beforeThen {st' : Statement} (h : At p i (st :: st' :: ss)) (frames : List Frame) :
    Place.beforeThen ⟨p.statements, i, frames⟩ = st'.isThen := by
  rw [Place.beforeThen, h.tail.head]
  rfl

end At

namespace Simple

/-- A simple statement is not `Then`. -/
theorem isThen_eq_false (x : Simple) (pos : Position) :
    Statement.isThen ⟨x.instruction, pos⟩ = false := by
  cases x <;> rfl

end Simple

namespace Statement

variable (toElse : Bool) (depth i : Nat) (rest : List Statement)

/-- The scan passes over a simple statement. -/
theorem skip_simple (x : Simple) (pos : Position) :
    skip toElse depth i (⟨x.instruction, pos⟩ :: rest) = skip toElse depth (i + 1) rest := by
  cases x <;> simp only [skip, Simple.instruction]

/-- The scan passes over a guarded statement. -/
private theorem skip_guard (test : Expr) (ifPos : Position) (x : Simple) (pos : Position) :
    skip toElse depth i (⟨.cond test, ifPos⟩ :: ⟨x.instruction, pos⟩ :: rest) =
      skip toElse depth (i + 2) rest := by
  rw [skip]
  simp only [Simple.isThen_eq_false, Bool.false_eq_true, if_false]
  exact skip_simple toElse depth (i + 1) rest x pos

/-- The scan counts a block that `Then` opens. -/
private theorem skip_then (test : Expr) (ifPos thenPos : Position) :
    skip toElse depth i (⟨.cond test, ifPos⟩ :: ⟨.consequent, thenPos⟩ :: rest) =
      skip toElse (depth + 1) (i + 2) rest := by
  rw [skip]
  rfl

private theorem skip_while (test : Expr) (pos : Position) :
    skip toElse depth i (⟨.whileLoop test, pos⟩ :: rest) =
      skip toElse (depth + 1) (i + 1) rest := rfl

private theorem skip_repeat (test : Expr) (pos : Position) :
    skip toElse depth i (⟨.repeatLoop test, pos⟩ :: rest) =
      skip toElse (depth + 1) (i + 1) rest := rfl

private theorem skip_innerElse (pos : Position) :
    skip toElse (depth + 1) i (⟨.alternative, pos⟩ :: rest) =
      skip toElse (depth + 1) (i + 1) rest := rfl

private theorem skip_innerEnd (pos : Position) :
    skip toElse (depth + 1) i (⟨.blockEnd, pos⟩ :: rest) = skip toElse depth (i + 1) rest := rfl

/-- The scan passes over a whole block and keeps its count. -/
theorem skip_flatten (code : Code) :
    skip toElse depth i (code.flatten ++ rest) =
      skip toElse depth (i + code.flatten.length) rest := by
  induction code generalizing depth i rest with
  | empty => rfl
  | seq a b iha ihb =>
    simp only [Code.flatten, List.append_assoc, List.length_append]
    rw [iha, ihb, Nat.add_assoc]
  | simple x pos => exact skip_simple toElse depth i rest x pos
  | guarded test ifPos x pos => exact skip_guard toElse depth i rest test ifPos x pos
  | cond test ifPos thenPos endPos body ih =>
    simp only [Code.flatten, List.cons_append, List.append_assoc, List.nil_append]
    rw [skip_then, ih, skip_innerEnd]
    congr 1
    simp only [List.length_cons, List.length_append, List.length_nil]
    omega
  | branch test ifPos thenPos elsePos endPos body other ihb iho =>
    simp only [Code.flatten, List.cons_append, List.append_assoc, List.nil_append]
    rw [skip_then, ihb, skip_innerElse, iho, skip_innerEnd]
    congr 1
    simp only [List.length_cons, List.length_append, List.length_nil]
    omega
  | whileLoop test pos endPos body ih =>
    simp only [Code.flatten, List.cons_append, List.append_assoc, List.nil_append]
    rw [skip_while, ih, skip_innerEnd]
    congr 1
    simp only [List.length_cons, List.length_append, List.length_nil]
    omega
  | repeatLoop test pos endPos body ih =>
    simp only [Code.flatten, List.cons_append, List.append_assoc, List.nil_append]
    rw [skip_repeat, ih, skip_innerEnd]
    congr 1
    simp only [List.length_cons, List.length_append, List.length_nil]
    omega

end Statement

/-- The scan from the start of a block stops at its `End`. -/
theorem Place.skip_to_end {p : Program} {i n : Nat} {code : Code} {endPos : Position}
    (h : At p (i + n) (code.flatten ++ [⟨.blockEnd, endPos⟩])) (frames : List Frame)
    (toElse : Bool) :
    Place.skip ⟨p.statements, i, frames⟩ n toElse = .ok (i + n + code.flatten.length) := by
  obtain ⟨post, hpost⟩ := h
  rw [Place.skip, ← hpost, List.append_assoc, Statement.skip_flatten, List.singleton_append]
  rfl

/-- The scan for `Else` stops at the one that divides the block. -/
theorem Place.skip_to_else {p : Program} {i n : Nat} {code : Code} {elsePos : Position}
    (h : At p (i + n) (code.flatten ++ [⟨.alternative, elsePos⟩])) (frames : List Frame) :
    Place.skip ⟨p.statements, i, frames⟩ n true = .ok (i + n + code.flatten.length) := by
  obtain ⟨post, hpost⟩ := h
  rw [Place.skip, ← hpost, List.append_assoc, Statement.skip_flatten, List.singleton_append]
  rfl

/-- A structured program does not start with `Then`. -/
theorem Code.isThen_head_eq_false (code : Code) {rest : List Statement}
    (hrest : rest.head?.any (·.isThen) = false) :
    (code.flatten ++ rest).head?.any (·.isThen) = false := by
  induction code generalizing rest with
  | empty => exact hrest
  | seq a b iha ihb =>
    rw [Code.flatten, List.append_assoc]
    exact iha (ihb hrest)
  | simple x pos => exact x.isThen_eq_false pos
  | guarded | cond | branch | whileLoop | repeatLoop => rfl

/-- The word that opens a loop is not followed by `Then`. -/
theorem At.beforeThen_eq_false {p : Program} {i : Nat} {st : Statement} {body : Code}
    {endPos : Position} (h : At p i (st :: (body.flatten ++ [⟨.blockEnd, endPos⟩])))
    (frames : List Frame) : Place.beforeThen ⟨p.statements, i, frames⟩ = false := by
  obtain ⟨post, hpost⟩ := h.tail
  rw [Place.beforeThen, ← List.head?_drop, ← hpost, List.append_assoc]
  exact body.isThen_head_eq_false rfl

namespace Place

/-- Where a program goes on after a simple statement, if it does. -/
def after (p : Place) : Signal → Progress
  | .none => p.advance
  | signal => .done signal

/-- A simple statement does what it does on its own, and then goes on or ends. -/
theorem step_simple (p : Place) (r : Registry) (program : String) {x : Simple} (pos : Position)
    (hcall : ∀ name, x ≠ .call name) (hstop : x ≠ .stop) :
    p.step r program ⟨x.instruction, pos⟩ =
      x.perform r >>= fun signal => pure (p.after signal) := by
  cases x with
  | expression e target =>
    cases target <;> simp [Simple.instruction, step, runExpression, Simple.perform, after]
  | display es => simp [Simple.instruction, step, Simple.perform, after]
  | input text t => simp [Simple.instruction, step, Simple.perform, after]
  | prompt ts => simp [Simple.instruction, step, Simple.perform, after]
  | call name => exact absurd rfl (hcall name)
  | stop => exact absurd rfl hstop
  | ret => rfl

end Place

section Words

variable {c : Context} {p : Program} {i : Nat} (fuel depth : Nat) (frames : List Frame) (s : Scene)

/-- A simple statement is performed, and then the program goes on or ends. -/
theorem runScene_simple {x : Simple} {pos : Position} (h : At p i [⟨x.instruction, pos⟩])
    (hcall : ∀ name, x ≠ .call name) :
    runScene c (fuel + 1) depth p i frames s =
      Ending.andThen ((x.perform c.commands).onScene s) fun signal s' =>
        if signal = .none then runScene c fuel depth p (i + 1) frames s'
        else some (.ok signal s') := by
  have hinstruction : ∀ name, x.instruction ≠ .call name := by
    intro name he
    cases x <;> cases he
    exact hcall name rfl
  rw [runScene_step h.head hinstruction]
  by_cases hstop : x = .stop
  · subst x
    rfl
  · rw [Place.step_simple _ _ _ pos hcall hstop,
      Ending.andThen_onScene_bind _ fun _ => Action.unlogged_pure _]
    congr 1
    funext signal s'
    cases signal <;> rfl

/-- `If` before a simple statement: the statement is come to, or passed over. -/
theorem runScene_guard {test : Expr} {ifPos pos : Position} {x : Simple}
    (h : At p i [⟨.cond test, ifPos⟩, ⟨x.instruction, pos⟩]) :
    runScene c (fuel + 1) depth p i frames s =
      Ending.andThen ((test.test c.commands).onScene s) fun holds s' =>
        runScene c fuel depth p (if holds then i + 1 else i + 2) frames s' := by
  rw [runScene_step h.head (by simp)]
  simp only [Place.step, Place.runCond, h.beforeThen, Simple.isThen_eq_false, Bool.false_eq_true,
    if_false]
  rw [Ending.andThen_onScene_bind _
    fun _ => (Action.unlogged_pure _).ite (Action.unlogged_pure _)]
  congr 1
  funext holds s'
  cases holds <;> rfl

/-- `If` before a block: the block is entered, or left behind together with its `End`. -/
theorem runScene_then {test : Expr} {ifPos thenPos endPos : Position} {body : Code}
    (h : At p i (⟨.cond test, ifPos⟩ :: ⟨.consequent, thenPos⟩ ::
      (body.flatten ++ [⟨.blockEnd, endPos⟩]))) :
    runScene c (fuel + 1) depth p i frames s =
      Ending.andThen ((test.test c.commands).onScene s) fun holds s' =>
        if holds then runScene c fuel depth p (i + 2) (⟨.cond false, i⟩ :: frames) s'
        else runScene c fuel depth p (i + 2 + body.flatten.length + 1) frames s' := by
  have hbody : At p (i + 2) (body.flatten ++ [⟨.blockEnd, endPos⟩]) := h.tail.tail
  have hend := hbody.right.head
  rw [runScene_step h.head (by simp)]
  simp only [Place.step, Place.runCond, h.beforeThen, Statement.isThen, if_true,
    Place.skip_to_end hbody, Action.ofExcept, pure_bind, hend, Option.any_some, Statement.isElse,
    Bool.false_eq_true, if_false]
  rw [Ending.andThen_onScene_bind _
    fun _ => (Action.unlogged_pure _).ite (Action.unlogged_pure _)]
  congr 1
  funext holds s'
  cases holds <;> rfl

/-- `If` before a divided block: one of its parts is entered. -/
theorem runScene_thenElse {test : Expr} {ifPos thenPos elsePos : Position} {body : Code}
    {rest : List Statement}
    (h : At p i (⟨.cond test, ifPos⟩ :: ⟨.consequent, thenPos⟩ ::
      (body.flatten ++ ⟨.alternative, elsePos⟩ :: rest))) :
    runScene c (fuel + 1) depth p i frames s =
      Ending.andThen ((test.test c.commands).onScene s) fun holds s' =>
        if holds then runScene c fuel depth p (i + 2) (⟨.cond false, i⟩ :: frames) s'
        else runScene c fuel depth p (i + 2 + body.flatten.length + 1)
          (⟨.cond true, i⟩ :: frames) s' := by
  have hbody : At p (i + 2) (body.flatten ++ ⟨.alternative, elsePos⟩ :: rest) := h.tail.tail
  have helse := hbody.right.head
  have hskip : At p (i + 2) (body.flatten ++ [⟨.alternative, elsePos⟩]) := by
    rw [List.append_cons] at hbody
    exact hbody.left
  rw [runScene_step h.head (by simp)]
  simp only [Place.step, Place.runCond, h.beforeThen, Statement.isThen, if_true,
    Place.skip_to_else hskip, Action.ofExcept, pure_bind, helse, Option.any_some,
    Statement.isElse]
  rw [Ending.andThen_onScene_bind _
    fun _ => (Action.unlogged_pure _).ite (Action.unlogged_pure _)]
  congr 1
  funext holds s'
  cases holds <;> rfl

/-- `Else` at the end of the first part passes over the second. -/
theorem runScene_else {elsePos endPos : Position} {other : Code} {header : Nat}
    (h : At p i (⟨.alternative, elsePos⟩ :: (other.flatten ++ [⟨.blockEnd, endPos⟩]))) :
    runScene c (fuel + 1) depth p i (⟨.cond false, header⟩ :: frames) s =
      runScene c fuel depth p (i + 1 + other.flatten.length + 1) frames s := by
  rw [runScene_step h.head (by simp)]
  simp only [Place.step, Place.runElse, Place.skip_to_end h.tail, Action.ofExcept, pure_bind]
  rfl

/-- `End` of a condition. -/
theorem runScene_endCond {endPos : Position} {inElse : Bool} {header : Nat}
    (h : At p i [⟨.blockEnd, endPos⟩]) :
    runScene c (fuel + 1) depth p i (⟨.cond inElse, header⟩ :: frames) s =
      runScene c fuel depth p (i + 1) frames s := by
  rw [runScene_step h.head (by simp)]
  rfl

/-- `While` tests: its block is entered, or left behind together with its `End`. -/
theorem runScene_while {test : Expr} {pos endPos : Position} {body : Code}
    (h : At p i (⟨.whileLoop test, pos⟩ :: (body.flatten ++ [⟨.blockEnd, endPos⟩]))) :
    runScene c (fuel + 1) depth p i frames s =
      Ending.andThen ((test.test c.commands).onScene s) fun holds s' =>
        if holds then runScene c fuel depth p (i + 1) (⟨.whileLoop, i⟩ :: frames) s'
        else runScene c fuel depth p (i + 1 + body.flatten.length + 1) frames s' := by
  rw [runScene_step h.head (by simp)]
  simp only [Place.step, Place.runWhile, h.beforeThen_eq_false, Bool.false_eq_true, if_false,
    Place.skip_to_end h.tail, Action.ofExcept, pure_bind]
  rw [Ending.andThen_onScene_bind _
    fun _ => (Action.unlogged_pure _).ite (Action.unlogged_pure _)]
  congr 1
  funext holds s'
  cases holds <;> rfl

/-- `End` of a `While` goes back to the test. -/
theorem runScene_endWhile {endPos : Position} {header : Nat} (h : At p i [⟨.blockEnd, endPos⟩]) :
    runScene c (fuel + 1) depth p i (⟨.whileLoop, header⟩ :: frames) s =
      runScene c fuel depth p header frames s := by
  rw [runScene_step h.head (by simp)]
  rfl

/-- `Repeat` enters its block. -/
theorem runScene_repeat {test : Expr} {pos endPos : Position} {body : Code}
    (h : At p i (⟨.repeatLoop test, pos⟩ :: (body.flatten ++ [⟨.blockEnd, endPos⟩]))) :
    runScene c (fuel + 1) depth p i frames s =
      runScene c fuel depth p (i + 1) (⟨.repeatLoop test, i⟩ :: frames) s := by
  rw [runScene_step h.head (by simp)]
  simp only [Place.step, Place.runRepeat, h.beforeThen_eq_false, Bool.false_eq_true, if_false]
  rfl

/-- `End` of a `Repeat` tests, and goes back into the block while the test is false. -/
theorem runScene_endRepeat {test : Expr} {endPos : Position} {header : Nat}
    (h : At p i [⟨.blockEnd, endPos⟩]) :
    runScene c (fuel + 1) depth p i (⟨.repeatLoop test, header⟩ :: frames) s =
      Ending.andThen ((test.test c.commands).onScene s) fun holds s' =>
        if holds then runScene c fuel depth p (i + 1) frames s'
        else runScene c fuel depth p (header + 1) (⟨.repeatLoop test, header⟩ :: frames) s' := by
  rw [runScene_step h.head (by simp)]
  simp only [Place.step, Place.runEnd]
  rw [Ending.andThen_onScene_bind _
    fun _ => (Action.unlogged_pure _).ite (Action.unlogged_pure _)]
  congr 1
  funext holds s'
  cases holds <;> rfl

end Words

/-- A fault leaves the program. -/
theorem Ending.leaves_error (f : Fault) (s : Scene) : Ending.Leaves (.error f s) := by
  intro s' he
  cases he

/-- A signal leaves the program. -/
theorem Ending.leaves_ok {signal : Signal} (h : signal ≠ .none) (s : Scene) :
    Ending.Leaves (.ok signal s) := by
  intro s' he
  injection he with hsignal
  exact h hsignal

/-- Every outcome goes on or leaves. -/
theorem Ending.goes_on_or_leaves (o : Ending Signal) : (∃ s, o = .ok .none s) ∨ o.Leaves := by
  by_cases h : ∃ s, o = .ok .none s
  · exact Or.inl h
  · exact Or.inr fun s he => h ⟨s, he⟩

/-- What becomes of a program at index `i`, where a part of it came out as `o`: it goes on there and
comes out as `out`, or it has already ended. -/
def Follows (c : Context) (fuel depth : Nat) (p : Program) (i : Nat) (frames : List Frame)
    (o out : Ending Signal) : Prop :=
  (∃ s, o = .ok .none s ∧ runScene c fuel depth p i frames s = some out) ∨ (o.Leaves ∧ out = o)

namespace Follows

variable {c : Context} {fuel more depth : Nat} {p : Program} {i : Nat} {frames : List Frame}
  {o out : Ending Signal} {s : Scene}

/-- More fuel changes nothing. -/
theorem mono (hle : fuel ≤ more) (h : Follows c fuel depth p i frames o out) :
    Follows c more depth p i frames o out := by
  rcases h with ⟨s, ho, hrun⟩ | hleft
  · exact Or.inl ⟨s, ho, runScene_mono hle hrun⟩
  · exact Or.inr hleft

/-- A program that goes on follows a part that comes out without a signal. -/
theorem on (h : runScene c fuel depth p i frames s = some out) :
    Follows c fuel depth p i frames (.ok .none s) out := Or.inl ⟨s, rfl, h⟩

/-- Nothing follows a fault. -/
theorem failed (f : Fault) (s : Scene) :
    Follows c fuel depth p i frames (.error f s) (.error f s) :=
  Or.inr ⟨Ending.leaves_error f s, rfl⟩

/-- After a part that comes out without a signal, the program goes on. -/
theorem next (h : Follows c fuel depth p i frames (.ok .none s) out) :
    runScene c fuel depth p i frames s = some out := by
  rcases h with ⟨s', ho, hrun⟩ | ⟨hleaves, _⟩
  · injection ho with _ hs
    rwa [hs]
  · exact absurd rfl (hleaves s)

/-- One word before the place where the program goes on. -/
theorem step {j : Nat} {frames' : List Frame}
    (heq : ∀ s, runScene c (fuel + 1) depth p i frames s = runScene c fuel depth p j frames' s)
    (h : Follows c fuel depth p j frames' o out) : Follows c (fuel + 1) depth p i frames o out := by
  rcases h with ⟨s, ho, hrun⟩ | hleft
  · exact Or.inl ⟨s, ho, (heq s).trans hrun⟩
  · exact Or.inr hleft

/-- One word further, where the program goes on at it. -/
theorem unstep {j : Nat} {frames' : List Frame}
    (heq : ∀ fuel s, runScene c (fuel + 1) depth p i frames s = runScene c fuel depth p j frames' s)
    (h : Follows c fuel depth p i frames o out) : Follows c fuel depth p j frames' o out := by
  rcases h with ⟨s, ho, hrun⟩ | hleft
  · cases fuel with
    | zero => cases hrun
    | succ fuel =>
      exact Or.inl ⟨s, ho, runScene_mono (Nat.le_succ fuel) ((heq fuel s).symm.trans hrun)⟩
  · exact Or.inr hleft

theorem at_eq {j : Nat} (h : Follows c fuel depth p i frames o out) (hij : i = j) :
    Follows c fuel depth p j frames o out := hij ▸ h

/-- A part that leaves the program tells how it ends. -/
theorem eq_of_leaves (ho : o.Leaves) (h : Follows c fuel depth p i frames o out) : out = o := by
  rcases h with ⟨s, hok, _⟩ | ⟨_, hout⟩
  · exact absurd hok (ho s)
  · exact hout

/-- Where a program would go on does not matter once it has ended. -/
theorem elsewhere {j : Nat} {frames' : List Frame} (ho : o.Leaves)
    (h : Follows c fuel depth p i frames o out) : Follows c fuel depth p j frames' o out :=
  Or.inr ⟨ho, h.eq_of_leaves ho⟩

end Follows

/-- A run that begins with a test ends as the run that the result of the test leads to. -/
theorem EndsFrom.tested {c : Context} {depth : Nat} {p : Program} {i j : Nat}
    {frames frames' : List Frame} {s s' : Scene} {out : Ending Signal} {test : Expr} {holds : Bool}
    {k : Nat → Bool → Scene → Option (Ending Signal)}
    (heq : ∀ fuel, runScene c (fuel + 1) depth p i frames s =
      Ending.andThen ((test.test c.commands).onScene s) (k fuel))
    (htest : (test.test c.commands).onScene s = .ok holds s')
    (hk : ∀ fuel, k fuel holds s' = runScene c fuel depth p j frames' s')
    (h : EndsFrom c depth p j frames' s' out) : EndsFrom c depth p i frames s out := by
  refine EndsFrom.step (fun fuel => ?_) h
  rw [heq, htest, Ending.andThen_ok, hk]

section Simple

variable {c : Context} {depth : Nat} {p : Program} {i : Nat} {frames : List Frame} {s : Scene}
  {x : Simple} {pos : Position} {o out : Ending Signal}

/-- A simple statement that comes out in some way lets the flat program do so. -/
theorem Simple.Runs.endsFrom (hx : x.Runs c depth pos s o) (h : At p i [⟨x.instruction, pos⟩])
    {fuel : Nat} (hnext : Follows c fuel depth p (i + 1) frames o out) :
    EndsFrom c depth p i frames s out := by
  cases hx with
  | perform hcall =>
    refine ⟨fuel + 1, ?_⟩
    rw [runScene_simple _ _ _ _ h hcall]
    cases hperform : (x.perform c.commands).onScene s with
    | error f s' =>
      rw [hperform] at hnext
      rw [hnext.eq_of_leaves (Ending.leaves_error f s'), Ending.andThen_error]
    | ok signal s' =>
      rw [hperform] at hnext
      rw [Ending.andThen_ok]
      split
      · next hsignal =>
        subst signal
        exact hnext.next
      · next hsignal => rw [hnext.eq_of_leaves (Ending.leaves_ok hsignal s')]
  | undefined hname =>
    refine ⟨fuel + 1, ?_⟩
    rw [runScene_undefined h.head rfl hname, hnext.eq_of_leaves (Ending.leaves_error _ _)]
  | @call name callee _ ended hname hends =>
    obtain ⟨enough, hends⟩ := hends
    refine ⟨max enough fuel + 1, ?_⟩
    rw [runScene_call h.head rfl hname, executeScene_mono (Nat.le_max_left enough fuel) hends,
      Option.bind_some]
    have hnext := hnext.mono (Nat.le_max_right enough fuel)
    cases ended with
    | error f s' => rw [hnext.eq_of_leaves (Ending.leaves_error f s')]; rfl
    | ok signal s' =>
      cases signal with
      | stop => rw [hnext.eq_of_leaves (Ending.leaves_ok (by decide) s')]; rfl
      | none => exact hnext.next
      | ret => exact hnext.next

/-- Where the flat program ends, the simple statement at its index comes out in some way. -/
theorem Simple.runs_of_runScene (h : At p i [⟨x.instruction, pos⟩]) {fuel : Nat}
    (hrun : runScene c (fuel + 1) depth p i frames s = some out) :
    ∃ o, x.Runs c depth pos s o ∧ Follows c fuel depth p (i + 1) frames o out := by
  by_cases hcall : ∃ name, x = .call name
  · obtain ⟨name, rfl⟩ := hcall
    cases hname : c.programs[name]? with
    | none =>
      rw [runScene_undefined h.head rfl hname] at hrun
      exact ⟨_, .undefined hname, Or.inr ⟨Ending.leaves_error _ _, (Option.some.inj hrun).symm⟩⟩
    | some callee =>
      rw [runScene_call h.head rfl hname] at hrun
      obtain ⟨ended, hends, hnext⟩ := Option.bind_eq_some_iff.mp hrun
      refine ⟨_, .call hname ⟨fuel, hends⟩, ?_⟩
      cases ended with
      | error f s' => exact Or.inr ⟨Ending.leaves_error _ _, (Option.some.inj hnext).symm⟩
      | ok signal s' =>
        cases signal with
        | stop => exact Or.inr ⟨Ending.leaves_ok (by decide) _, (Option.some.inj hnext).symm⟩
        | none => exact Or.inl ⟨s', rfl, hnext⟩
        | ret => exact Or.inl ⟨s', rfl, hnext⟩
  · have hcall : ∀ name, x ≠ .call name := not_exists.mp hcall
    refine ⟨_, .perform hcall, ?_⟩
    rw [runScene_simple _ _ _ _ h hcall] at hrun
    cases hperform : (x.perform c.commands).onScene s with
    | error f s' =>
      rw [hperform] at hrun
      exact Or.inr ⟨Ending.leaves_error f s', (Option.some.inj hrun).symm⟩
    | ok signal s' =>
      rw [hperform, Ending.andThen_ok] at hrun
      split at hrun
      · next hsignal =>
        subst signal
        exact Or.inl ⟨s', rfl, hrun⟩
      · next hsignal =>
        exact Or.inr ⟨Ending.leaves_ok hsignal s', (Option.some.inj hrun).symm⟩

end Simple

namespace Code

variable {c : Context} {depth : Nat} {p : Program} {i : Nat} {frames : List Frame} {s : Scene}
  {code : Code} {o out : Ending Signal}

/-- The index after a block with two words before and one behind it. -/
theorem add_length_cond (i : Nat) (test : Expr) (ifPos thenPos endPos : Position) (body : Code) :
    i + (cond test ifPos thenPos endPos body).flatten.length =
      i + 2 + body.flatten.length + 1 := by
  simp only [flatten, List.length_cons, List.length_append, List.length_nil]
  omega

/-- The index after a divided block with two words before, one between and one behind its parts. -/
theorem add_length_branch (i : Nat) (test : Expr) (ifPos thenPos elsePos endPos : Position)
    (body other : Code) :
    i + (branch test ifPos thenPos elsePos endPos body other).flatten.length =
      i + 2 + body.flatten.length + 1 + other.flatten.length + 1 := by
  simp only [flatten, List.length_cons, List.length_append, List.length_nil]
  omega

/-- The index after a loop with one word before and one behind its block. -/
theorem add_length_while (i : Nat) (test : Expr) (pos endPos : Position) (body : Code) :
    i + (whileLoop test pos endPos body).flatten.length = i + 1 + body.flatten.length + 1 := by
  simp only [flatten, List.length_cons, List.length_append, List.length_nil]
  omega

theorem add_length_repeat (i : Nat) (test : Expr) (pos endPos : Position) (body : Code) :
    i + (repeatLoop test pos endPos body).flatten.length = i + 1 + body.flatten.length + 1 :=
  add_length_while i test pos endPos body

/-- A tree with a first test does nothing before it. -/
theorem runScene_firstTest (c : Context) (depth : Nat) {test : Expr}
    (hcode : code.firstTest = some test) (h : At p i code.flatten) (frames : List Frame)
    (s : Scene) :
    ∃ k : Nat → Bool → Scene → Option (Ending Signal), ∀ fuel,
      runScene c (fuel + 1) depth p i frames s =
        Ending.andThen ((test.test c.commands).onScene s) (k fuel) := by
  cases code with
  | guarded test' ifPos x pos =>
    cases hcode
    exact ⟨_, fun fuel => runScene_guard fuel depth frames s h⟩
  | cond test' ifPos thenPos endPos body =>
    cases hcode
    exact ⟨_, fun fuel => runScene_then fuel depth frames s h⟩
  | branch test' ifPos thenPos elsePos endPos body other =>
    cases hcode
    exact ⟨_, fun fuel => runScene_thenElse fuel depth frames s h⟩
  | whileLoop test' pos endPos body =>
    cases hcode
    exact ⟨_, fun fuel => runScene_while fuel depth frames s h⟩
  | empty => cases hcode
  | seq a b => cases hcode
  | simple x pos => cases hcode
  | repeatLoop test' pos endPos body => cases hcode

/-- Wherever the flattened tree stands in a program, a run that comes to it in the scene `s` ends as
the program does that goes on behind it, or has ended in it, with the outcome `o`. -/
def LeadsTo (c : Context) (depth : Nat) (code : Code) (s : Scene) (o : Ending Signal) : Prop :=
  ∀ ⦃p : Program⦄ ⦃i fuel : Nat⦄ ⦃frames : List Frame⦄ ⦃out : Ending Signal⦄,
    At p i code.flatten → Follows c fuel depth p (i + code.flatten.length) frames o out →
      EndsFrom c depth p i frames s out

section LeadsTo

variable {test : Expr} {pos ifPos thenPos elsePos endPos : Position} {body other : Code}
  {s' s'' : Scene}

/-- The second part of a sequence is run where the first one goes on. -/
private theorem LeadsTo.seq {a b : Code} (ha : a.LeadsTo c depth s (.ok .none s'))
    (hb : b.LeadsTo c depth s' o) : (seq a b).LeadsTo c depth s o := by
  intro p i fuel frames out h hnext
  rw [flatten, List.length_append] at hnext
  obtain ⟨enough, hrun⟩ := hb h.right (hnext.at_eq (Nat.add_assoc _ _ _).symm)
  exact ha h.left (.on hrun)

/-- A fault of the first test ends the program before anything else of the tree is run. -/
private theorem leadsTo_testFails {f : Fault} (hcode : code.firstTest = some test)
    (htest : (test.test c.commands).onScene s = .error f s') :
    code.LeadsTo c depth s (.error f s') := by
  intro p i fuel frames out h hnext
  obtain ⟨k, hk⟩ := runScene_firstTest c depth hcode h frames s
  rw [hnext.eq_of_leaves (Ending.leaves_error f s')]
  exact ⟨1, by rw [hk, htest, Ending.andThen_error]⟩

private theorem leadsTo_guardedTrue {x : Simple}
    (htest : (test.test c.commands).onScene s = .ok true s') (hx : x.Runs c depth pos s' o) :
    (guarded test ifPos x pos).LeadsTo c depth s o := by
  intro p i fuel frames out h hnext
  exact EndsFrom.tested (fun n => runScene_guard n depth frames _ h) htest (fun _ => rfl)
    (hx.endsFrom h.tail hnext)

private theorem leadsTo_guardedFalse {x : Simple}
    (htest : (test.test c.commands).onScene s = .ok false s') :
    (guarded test ifPos x pos).LeadsTo c depth s (.ok .none s') := by
  intro p i fuel frames out h hnext
  exact EndsFrom.tested (fun n => runScene_guard n depth frames _ h) htest (fun _ => rfl)
    ⟨fuel, hnext.next⟩

/-- A block whose condition holds is run, and its `End` leads behind it. -/
private theorem LeadsTo.condTrue (htest : (test.test c.commands).onScene s = .ok true s')
    (hbody : body.LeadsTo c depth s' o) :
    (cond test ifPos thenPos endPos body).LeadsTo c depth s o := by
  intro p i fuel frames out h hnext
  rw [add_length_cond] at hnext
  have hblock : At p (i + 2) (body.flatten ++ [⟨.blockEnd, endPos⟩]) := h.tail.tail
  have hend : Follows c (fuel + 1) depth p _ (⟨.cond false, i⟩ :: frames) o out :=
    hnext.step fun s => runScene_endCond fuel depth frames s hblock.right
  exact EndsFrom.tested (fun n => runScene_then n depth frames _ h) htest (fun _ => rfl)
    (hbody hblock.left hend)

private theorem leadsTo_condFalse (htest : (test.test c.commands).onScene s = .ok false s') :
    (cond test ifPos thenPos endPos body).LeadsTo c depth s (.ok .none s') := by
  intro p i fuel frames out h hnext
  rw [add_length_cond] at hnext
  exact EndsFrom.tested (fun n => runScene_then n depth frames _ h) htest (fun _ => rfl)
    ⟨fuel, hnext.next⟩

/-- The first part of a divided block is run, and `Else` leads behind the second one. -/
private theorem LeadsTo.branchTrue (htest : (test.test c.commands).onScene s = .ok true s')
    (hbody : body.LeadsTo c depth s' o) :
    (branch test ifPos thenPos elsePos endPos body other).LeadsTo c depth s o := by
  intro p i fuel frames out h hnext
  rw [add_length_branch] at hnext
  have hblock : At p (i + 2) (body.flatten ++ ⟨.alternative, elsePos⟩ ::
    (other.flatten ++ [⟨.blockEnd, endPos⟩])) := h.tail.tail
  have helse : Follows c (fuel + 1) depth p _ (⟨.cond false, i⟩ :: frames) o out :=
    hnext.step fun s => runScene_else fuel depth frames s hblock.right
  exact EndsFrom.tested (fun n => runScene_thenElse n depth frames _ h) htest (fun _ => rfl)
    (hbody hblock.left helse)

private theorem LeadsTo.branchFalse (htest : (test.test c.commands).onScene s = .ok false s')
    (hother : other.LeadsTo c depth s' o) :
    (branch test ifPos thenPos elsePos endPos body other).LeadsTo c depth s o := by
  intro p i fuel frames out h hnext
  rw [add_length_branch] at hnext
  have hblock : At p (i + 2) (body.flatten ++ ⟨.alternative, elsePos⟩ ::
    (other.flatten ++ [⟨.blockEnd, endPos⟩])) := h.tail.tail
  have hend : Follows c (fuel + 1) depth p _ (⟨.cond true, i⟩ :: frames) o out :=
    hnext.step fun s => runScene_endCond fuel depth frames s hblock.right.tail.right
  exact EndsFrom.tested (fun n => runScene_thenElse n depth frames _ h) htest (fun _ => rfl)
    (hother hblock.right.tail.left hend)

private theorem leadsTo_whileFalse (htest : (test.test c.commands).onScene s = .ok false s') :
    (whileLoop test pos endPos body).LeadsTo c depth s (.ok .none s') := by
  intro p i fuel frames out h hnext
  rw [add_length_while] at hnext
  exact EndsFrom.tested (fun n => runScene_while n depth frames _ h) htest (fun _ => rfl)
    ⟨fuel, hnext.next⟩

/-- The `End` of a `While` leads back to its header with the blocks of the start open, where the
loop runs again. -/
private theorem LeadsTo.whileTrue (htest : (test.test c.commands).onScene s = .ok true s')
    (hbody : body.LeadsTo c depth s' (.ok .none s''))
    (hagain : (whileLoop test pos endPos body).LeadsTo c depth s'' o) :
    (whileLoop test pos endPos body).LeadsTo c depth s o := by
  intro p i fuel frames out h hnext
  obtain ⟨enough, hrun⟩ := hagain h hnext
  have hend : Follows c (enough + 1) depth p (i + 1 + body.flatten.length)
      (⟨.whileLoop, i⟩ :: frames) (.ok .none s'') out :=
    .on ((runScene_endWhile _ _ _ s'' h.tail.right).trans hrun)
  exact EndsFrom.tested (fun n => runScene_while n depth frames _ h) htest (fun _ => rfl)
    (hbody h.tail.left hend)

private theorem LeadsTo.whileLeft (htest : (test.test c.commands).onScene s = .ok true s')
    (hbody : body.LeadsTo c depth s' o) (ho : o.Leaves) :
    (whileLoop test pos endPos body).LeadsTo c depth s o := by
  intro p i fuel frames out h hnext
  have hleft : Follows c fuel depth p (i + 1 + body.flatten.length) (⟨.whileLoop, i⟩ :: frames)
    o out := hnext.elsewhere ho
  exact EndsFrom.tested (fun n => runScene_while n depth frames _ h) htest (fun _ => rfl)
    (hbody h.tail.left hleft)

private theorem LeadsTo.repeatLeft (hbody : body.LeadsTo c depth s o) (ho : o.Leaves) :
    (repeatLoop test pos endPos body).LeadsTo c depth s o := by
  intro p i fuel frames out h hnext
  exact EndsFrom.step (fun _ => runScene_repeat _ _ _ _ h)
    (hbody h.tail.left (hnext.elsewhere ho))

/-- A `Repeat` whose block was run ends as the program does that goes on at its `End`. -/
private theorem LeadsTo.endsFrom_repeat (hbody : body.LeadsTo c depth s (.ok .none s')) (fuel : Nat)
    (h : At p i (repeatLoop test pos endPos body).flatten)
    (hend : runScene c fuel depth p (i + 1 + body.flatten.length)
      (⟨.repeatLoop test, i⟩ :: frames) s' = some out) : EndsFrom c depth p i frames s out :=
  EndsFrom.step (fun _ => runScene_repeat _ _ _ _ h) (hbody h.tail.left (.on hend))

private theorem LeadsTo.repeatFails {f : Fault} (hbody : body.LeadsTo c depth s (.ok .none s'))
    (htest : (test.test c.commands).onScene s' = .error f s'') :
    (repeatLoop test pos endPos body).LeadsTo c depth s (.error f s'') := by
  intro p i fuel frames out h hnext
  refine hbody.endsFrom_repeat 1 h ?_
  rw [runScene_endRepeat _ _ _ _ h.tail.right, htest,
    hnext.eq_of_leaves (Ending.leaves_error f s''), Ending.andThen_error]

private theorem LeadsTo.repeatTrue (hbody : body.LeadsTo c depth s (.ok .none s'))
    (htest : (test.test c.commands).onScene s' = .ok true s'') :
    (repeatLoop test pos endPos body).LeadsTo c depth s (.ok .none s'') := by
  intro p i fuel frames out h hnext
  rw [add_length_repeat] at hnext
  refine hbody.endsFrom_repeat (fuel + 1) h ?_
  rw [runScene_endRepeat _ _ _ _ h.tail.right, htest]
  exact hnext.next

/-- The `End` of a `Repeat` leads behind its header, which is where starting the loop again
leads. -/
private theorem LeadsTo.repeatFalse (hbody : body.LeadsTo c depth s (.ok .none s'))
    (htest : (test.test c.commands).onScene s' = .ok false s'')
    (hagain : (repeatLoop test pos endPos body).LeadsTo c depth s'' o) :
    (repeatLoop test pos endPos body).LeadsTo c depth s o := by
  intro p i fuel frames out h hnext
  obtain ⟨enough, hrun⟩ := hagain h hnext
  cases enough with
  | zero => cases hrun
  | succ enough =>
    rw [runScene_repeat _ _ _ _ h] at hrun
    refine hbody.endsFrom_repeat (enough + 1) h ?_
    rw [runScene_endRepeat _ _ _ _ h.tail.right, htest]
    exact hrun

end LeadsTo

/-- A tree that comes out in some way lets the flat program do so: what the part of the program from
an index on does is what the tree does, followed by the rest of the program. -/
theorem Runs.leadsTo (hruns : code.Runs c depth s o) : code.LeadsTo c depth s o := by
  induction hruns with
  | empty =>
    intro p i fuel frames out _ hnext
    exact ⟨fuel, hnext.next⟩
  | seq ha hb iha ihb => exact iha.seq ihb
  | seqLeft ha ho iha =>
    intro p i fuel frames out h hnext
    exact iha h.left (hnext.elsewhere ho)
  | simple hx =>
    intro p i fuel frames out h hnext
    exact hx.endsFrom h hnext
  | testFails hcode htest => exact leadsTo_testFails hcode htest
  | guardedTrue htest hx => exact leadsTo_guardedTrue htest hx
  | guardedFalse htest => exact leadsTo_guardedFalse htest
  | condTrue htest hbody ih => exact ih.condTrue htest
  | condFalse htest => exact leadsTo_condFalse htest
  | branchTrue htest hbody ih => exact ih.branchTrue htest
  | branchFalse htest hother ih => exact ih.branchFalse htest
  | whileFalse htest => exact leadsTo_whileFalse htest
  | whileTrue htest hbody hagain ihbody ihagain => exact ihbody.whileTrue htest ihagain
  | whileLeft htest hbody ho ih => exact ih.whileLeft htest ho
  | repeatLeft hbody ho ih => exact ih.repeatLeft ho
  | repeatFails hbody htest ih => exact ih.repeatFails htest
  | repeatTrue hbody htest ih => exact ih.repeatTrue htest
  | repeatFalse hbody htest hagain ihbody ihagain => exact ihbody.repeatFalse htest ihagain

/-- Wherever the flattened tree stands in a program, a run from there that ends with the fuel is
what the tree does, followed by the rest of the program. -/
def AccountsFor (c : Context) (depth fuel : Nat) (code : Code) : Prop :=
  ∀ ⦃p : Program⦄ ⦃i : Nat⦄ ⦃frames : List Frame⦄ ⦃s : Scene⦄ ⦃out : Ending Signal⦄,
    At p i code.flatten → runScene c fuel depth p i frames s = some out →
      ∃ o, code.Runs c depth s o ∧ Follows c fuel depth p (i + code.flatten.length) frames o out

section AccountsFor

variable {fuel : Nat} {test : Expr} {pos ifPos thenPos elsePos endPos : Position}
  {body other : Code}

/-- The second part of a sequence starts where the first one goes on, with all of the fuel. -/
private theorem AccountsFor.seq {a b : Code} (ha : a.AccountsFor c depth fuel)
    (hb : b.AccountsFor c depth fuel) : (seq a b).AccountsFor c depth fuel := by
  intro p i frames s out h hrun
  obtain ⟨oa, hruns, ⟨s', rfl, hrun'⟩ | ⟨hleaves, hout⟩⟩ := ha h.left hrun
  · obtain ⟨ob, hruns', hfollows⟩ := hb h.right hrun'
    refine ⟨ob, .seq hruns hruns', hfollows.at_eq ?_⟩
    rw [flatten, List.length_append, Nat.add_assoc]
  · exact ⟨oa, .seqLeft hruns hleaves, Or.inr ⟨hleaves, hout⟩⟩

private theorem accountsFor_guarded {x : Simple} :
    (guarded test ifPos x pos).AccountsFor c depth (fuel + 1) := by
  intro p i frames s out h hrun
  rw [runScene_guard _ _ _ _ h] at hrun
  obtain ⟨f, s', htest, rfl⟩ | ⟨s', htest, hrun⟩ | ⟨s', htest, hrun⟩ :=
    Ending.andThen_test_cases hrun
  · exact ⟨_, .testFails rfl htest, .failed f s'⟩
  · cases fuel with
    | zero => cases hrun
    | succ fuel =>
      obtain ⟨o, hx, hfollows⟩ := Simple.runs_of_runScene h.tail hrun
      exact ⟨o, .guardedTrue htest hx, hfollows.mono (by omega)⟩
  · exact ⟨_, .guardedFalse htest, .on (runScene_mono (Nat.le_succ fuel) hrun)⟩

private theorem AccountsFor.cond (hbody : body.AccountsFor c depth fuel) :
    (cond test ifPos thenPos endPos body).AccountsFor c depth (fuel + 1) := by
  intro p i frames s out h hrun
  rw [add_length_cond]
  have hblock : At p (i + 2) (body.flatten ++ [⟨.blockEnd, endPos⟩]) := h.tail.tail
  rw [runScene_then _ _ _ _ h] at hrun
  obtain ⟨f, s', htest, rfl⟩ | ⟨s', htest, hrun⟩ | ⟨s', htest, hrun⟩ :=
    Ending.andThen_test_cases hrun
  · exact ⟨_, .testFails rfl htest, .failed f s'⟩
  · obtain ⟨o, hruns, hfollows⟩ := hbody hblock.left hrun
    have hafter := hfollows.unstep fun n s => runScene_endCond n depth frames s hblock.right
    exact ⟨o, .condTrue htest hruns, hafter.mono (Nat.le_succ fuel)⟩
  · exact ⟨_, .condFalse htest, .on (runScene_mono (Nat.le_succ fuel) hrun)⟩

private theorem AccountsFor.branch (hbody : body.AccountsFor c depth fuel)
    (hother : other.AccountsFor c depth fuel) :
    (branch test ifPos thenPos elsePos endPos body other).AccountsFor c depth (fuel + 1) := by
  intro p i frames s out h hrun
  rw [add_length_branch]
  have hblock : At p (i + 2) (body.flatten ++ ⟨.alternative, elsePos⟩ ::
    (other.flatten ++ [⟨.blockEnd, endPos⟩])) := h.tail.tail
  rw [runScene_thenElse _ _ _ _ h] at hrun
  obtain ⟨f, s', htest, rfl⟩ | ⟨s', htest, hrun⟩ | ⟨s', htest, hrun⟩ :=
    Ending.andThen_test_cases hrun
  · exact ⟨_, .testFails rfl htest, .failed f s'⟩
  · obtain ⟨o, hruns, hfollows⟩ := hbody hblock.left hrun
    have hafter := hfollows.unstep fun n s => runScene_else n depth frames s hblock.right
    exact ⟨o, .branchTrue htest hruns, hafter.mono (Nat.le_succ fuel)⟩
  · obtain ⟨o, hruns, hfollows⟩ := hother hblock.right.tail.left hrun
    have hafter := hfollows.unstep fun n s =>
      runScene_endCond n depth frames s hblock.right.tail.right
    exact ⟨o, .branchFalse htest hruns, hafter.mono (Nat.le_succ fuel)⟩

/-- One word of fuel is spent on the header, so the block and the further rounds of a `While` get
less than the loop. -/
private theorem AccountsFor.whileLoop (hbody : body.AccountsFor c depth fuel)
    (hagain : (whileLoop test pos endPos body).AccountsFor c depth fuel) :
    (whileLoop test pos endPos body).AccountsFor c depth (fuel + 1) := by
  intro p i frames s out h hrun
  rw [add_length_while]
  rw [runScene_while _ _ _ _ h] at hrun
  obtain ⟨f, s', htest, rfl⟩ | ⟨s', htest, hrun⟩ | ⟨s', htest, hrun⟩ :=
    Ending.andThen_test_cases hrun
  · exact ⟨_, .testFails rfl htest, .failed f s'⟩
  · obtain ⟨o, hruns, hfollows⟩ := hbody h.tail.left hrun
    have hafter := hfollows.unstep fun n s => runScene_endWhile n depth frames s h.tail.right
    rcases hafter with ⟨s'', rfl, hrun'⟩ | ⟨hleaves, hout⟩
    · obtain ⟨o, hruns', hfollows'⟩ := hagain h hrun'
      rw [add_length_while] at hfollows'
      exact ⟨o, .whileTrue htest hruns hruns', hfollows'.mono (Nat.le_succ fuel)⟩
    · exact ⟨o, .whileLeft htest hruns hleaves, Or.inr ⟨hleaves, hout⟩⟩
  · exact ⟨_, .whileFalse htest, .on (runScene_mono (Nat.le_succ fuel) hrun)⟩

/-- Going back into the block of a `Repeat` is what starting the loop again would do. -/
private theorem AccountsFor.repeatLoop (hbody : body.AccountsFor c depth fuel)
    (hagain : (repeatLoop test pos endPos body).AccountsFor c depth fuel) :
    (repeatLoop test pos endPos body).AccountsFor c depth (fuel + 1) := by
  intro p i frames s out h hrun
  rw [add_length_repeat]
  rw [runScene_repeat _ _ _ _ h] at hrun
  obtain ⟨o, hruns, ⟨s', rfl, hend⟩ | ⟨hleaves, hout⟩⟩ := hbody h.tail.left hrun
  · cases fuel with
    | zero => cases hend
    | succ fuel =>
      rw [runScene_endRepeat _ _ _ _ h.tail.right] at hend
      obtain ⟨f, s'', htest, rfl⟩ | ⟨s'', htest, hrun'⟩ | ⟨s'', htest, hrun'⟩ :=
        Ending.andThen_test_cases hend
      · exact ⟨_, .repeatFails hruns htest, .failed f s''⟩
      · exact ⟨_, .repeatTrue hruns htest, .on (runScene_mono (by omega) hrun')⟩
      · have hstart := (runScene_repeat fuel depth frames s'' h).trans hrun'
        obtain ⟨o, hruns', hfollows⟩ := hagain h hstart
        rw [add_length_repeat] at hfollows
        exact ⟨o, .repeatFalse hruns htest hruns', hfollows.mono (Nat.le_succ _)⟩
  · exact ⟨o, .repeatLeft hruns hleaves, Or.inr ⟨hleaves, hout⟩⟩

end AccountsFor

/-- Where the flat program ends, the tree of the part from an index on comes out in some way, and
the rest of the program follows. The induction is on the fuel; only a sequence passes on all of it,
so the trees are taken apart inside. -/
theorem accountsFor (c : Context) (depth fuel : Nat) (code : Code) :
    code.AccountsFor c depth fuel := by
  induction fuel generalizing code with
  | zero =>
    intro p i frames s out h hrun
    cases hrun
  | succ fuel ih =>
    induction code with
    | empty =>
      intro p i frames s out h hrun
      exact ⟨_, .empty, .on hrun⟩
    | seq a b iha ihb => exact iha.seq ihb
    | simple x pos =>
      intro p i frames s out h hrun
      obtain ⟨o, hx, hfollows⟩ := Simple.runs_of_runScene h hrun
      exact ⟨o, .simple hx, hfollows.mono (Nat.le_succ fuel)⟩
    | guarded test ifPos x pos => exact accountsFor_guarded
    | cond test ifPos thenPos endPos body => exact (ih body).cond
    | branch test ifPos thenPos elsePos endPos body other => exact (ih body).branch (ih other)
    | whileLoop test pos endPos body => exact (ih body).whileLoop (ih _)
    | repeatLoop test pos endPos body => exact (ih body).repeatLoop (ih _)

end Code

/-- A structured program ends in some way exactly if its tree does, unless too many programs are
already running to start it. -/
theorem structured_execute_iff (c : Context) (depth : Nat) (name source : String) (code : Code)
    (w : World) (o : Ending Signal) :
    (∃ fuel out, execute c fuel depth ⟨name, source, code.flatten⟩ w = some out ∧
        Outcome.seen out = o) ↔
      if maxCallDepth ≤ depth then o = .error (.callDepth maxCallDepth) w.scene
      else code.Runs c (depth + 1) w.scene o := by
  rw [← ends_iff_execute]
  split
  · next hd =>
    constructor
    · rintro ⟨fuel, hends⟩
      rw [executeScene_of_le hd] at hends
      exact (Option.some.inj hends).symm
    · rintro rfl
      exact ⟨0, executeScene_of_le hd c 0 _ _⟩
  · next hd =>
    have hd : depth < maxCallDepth := Nat.not_le.mp hd
    have hat : At ⟨name, source, code.flatten⟩ 0 code.flatten := List.prefix_rfl
    have hend : code.flatten[0 + code.flatten.length]? = none := by simp
    constructor
    · rintro ⟨fuel, hends⟩
      rw [executeScene_of_lt hd] at hends
      obtain ⟨o', hruns, ⟨s, rfl, hrun⟩ | ⟨_, rfl⟩⟩ := Code.accountsFor c _ _ _ hat hends
      · cases fuel with
        | zero => cases hrun
        | succ fuel =>
          rw [runScene_end hend] at hrun
          rwa [← Option.some.inj hrun]
      · exact hruns
    · intro hruns
      have hfollows : Follows c 1 (depth + 1) ⟨name, source, code.flatten⟩
          (0 + code.flatten.length) [] o o := by
        rcases o.goes_on_or_leaves with ⟨s, rfl⟩ | hleaves
        · exact .on (runScene_end hend 0 _ _ s)
        · exact Or.inr ⟨hleaves, rfl⟩
      obtain ⟨fuel, hrun⟩ := hruns.leadsTo hat hfollows
      exact ⟨fuel, (executeScene_of_lt hd c fuel _ _).trans hrun⟩

end Handheld
