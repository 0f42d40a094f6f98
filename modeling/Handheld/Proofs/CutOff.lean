import Handheld.Proofs.Calls
import Handheld.Proofs.Writes
import Mathlib.Data.Nat.Find

/-!
# Programs that are cut off

A program that is cut off between two of its statements runs like the whole program, statement by
statement, up to the point where the whole program goes on behind the cut. There it ends silently,
whatever blocks are open. A statement can look ahead across the cut in two ways: for a `Then` right
behind it, which the cut must not take away, and for the end of a block that is not run. A block
that has lost its end is over with the program, so the scan for it never fails at an `Else` that was
cut off, though it may in the whole program.
-/

namespace Handheld

namespace Statement

/-- The statement is `If`, `While` or `Repeat`, which look for a `Then` right behind them. -/
def isHeader (st : Statement) : Bool :=
  match st.instruction with
  | .cond _ | .whileLoop _ | .repeatLoop _ => true
  | _ => false

/-- The statement looks for a `Then` and finds it at the front of the rest. -/
def meetsThen (st : Statement) (rest : List Statement) : Bool :=
  st.isHeader && rest.head?.any (·.isThen)

/-- A cut between the two lists separates a `Then` from the statement that looks for it. -/
def SeversThen (ss ts : List Statement) : Prop := ∃ st ∈ ss.getLast?, st.meetsThen ts = true

variable {ss ts : List Statement} {st : Statement} {depth i j width : Nat}

private theorem not_seversThen_of_append {before : List Statement}
    (h : ¬ SeversThen (before ++ ss) ts) : ¬ SeversThen ss ts := by
  rintro ⟨st, hst, hthen⟩
  refine h ⟨st, ?_, hthen⟩
  rw [List.getLast?_append, Option.mem_def.mp hst]
  rfl

/-- A cut that severs no `Then` does so in no tail of the statements before it. -/
theorem not_seversThen_drop (h : ¬ SeversThen ss ts) (n : Nat) : ¬ SeversThen (ss.drop n) ts := by
  rw [← List.take_append_drop n ss] at h
  exact not_seversThen_of_append h

/-- What comes behind the cut is not the `Then` that the last statement before it looks for. -/
theorem meetsThen_append (hcut : ¬ SeversThen (st :: ss) ts) :
    st.meetsThen (ss ++ ts) = st.meetsThen ss := by
  cases ss with
  | nil =>
    have hts : ¬ st.meetsThen ts = true := fun h => hcut ⟨st, rfl, h⟩
    simpa [meetsThen] using hts
  | cons t rest => rfl

/-- What the scan for the end of a block does with a statement that meets a `Then` or not. -/
inductive ScanStep (depth : Nat) (st : Statement) (meets : Bool) : Prop
  /-- It passes over the statement, and perhaps over the `Then` as well. -/
  | pass (depth' width : Nat) (hpos : 0 < width) (hwidth : width ≤ if meets then 2 else 1)
      (h : ∀ stopAtElse i ss, st.meetsThen ss = meets → skip stopAtElse depth i (st :: ss) =
        skip stopAtElse depth' (i + width) ((st :: ss).drop width))
  /-- It stops at the end of the block. -/
  | close (hst : st.isElse = false)
      (h : ∀ stopAtElse i ss, skip stopAtElse depth i (st :: ss) = .ok i)
  /-- It comes to an `Else` of the block, which may be the wrong place. -/
  | divide (hst : st.isElse = true) (h : ∀ stopAtElse i ss, skip stopAtElse depth i (st :: ss) =
      if stopAtElse then .ok i else .error (.control .elseWithoutIf st.position))

/-- The scan does one of three things with a statement, whatever follows it. -/
theorem scanStep (depth : Nat) (st : Statement) (meets : Bool) : ScanStep depth st meets := by
  have hone : 1 ≤ if meets then 2 else 1 := by split <;> omega
  obtain ⟨instruction, pos⟩ := st
  cases instruction with
  | cond test =>
    cases meets with
    | true =>
      refine .pass (depth + 1) 2 (by omega) (Nat.le_refl 2) fun stopAtElse i ss hmeets => ?_
      cases ss with
      | nil => cases hmeets
      | cons t rest =>
        have hthen : t.isThen = true := hmeets
        simp [skip, hthen]
    | false =>
      refine .pass depth 1 (by omega) hone fun stopAtElse i ss hmeets => ?_
      cases ss with
      | nil => rfl
      | cons t rest =>
        have hthen : t.isThen = false := hmeets
        simp [skip, hthen]
  | whileLoop test | repeatLoop test =>
    exact .pass (depth + 1) 1 (by omega) hone fun _ _ _ _ => rfl
  | alternative =>
    cases depth with
    | zero => exact .divide rfl fun _ _ _ => rfl
    | succ depth => exact .pass (depth + 1) 1 (by omega) hone fun _ _ _ _ => rfl
  | blockEnd =>
    cases depth with
    | zero => exact .close rfl fun _ _ _ => rfl
    | succ depth => exact .pass depth 1 (by omega) hone fun _ _ _ _ => rfl
  | consequent | stop | ret | display | input | prompt | call | expression =>
    exact .pass depth 1 (by omega) hone fun _ _ _ _ => rfl

/-- What is passed over in one go stands in the list. -/
private theorem width_le_length (h : width ≤ if st.meetsThen ss then 2 else 1) :
    width ≤ (st :: ss).length := by
  cases ss with
  | nil => simpa [meetsThen] using h
  | cons t rest =>
    rw [List.length_cons, List.length_cons]
    split at h <;> omega

/-- The scan stops before the cut, or it comes to the cut and goes on behind it. -/
theorem skip_append (hcut : ¬ SeversThen ss ts) (depth i : Nat) :
    (∀ stopAtElse, skip stopAtElse depth i (ss ++ ts) = skip stopAtElse depth i ss) ∨
      ∃ depth', ∀ stopAtElse, skip stopAtElse depth i ss = .ok (i + ss.length) ∧
        skip stopAtElse depth i (ss ++ ts) = skip stopAtElse depth' (i + ss.length) ts := by
  induction hn : ss.length using Nat.strongRecOn generalizing ss depth i with
  | ind n ih =>
    cases ss with
    | nil =>
      subst hn
      exact .inr ⟨depth, fun _ => ⟨rfl, rfl⟩⟩
    | cons st ss =>
      cases scanStep depth st (st.meetsThen ss) with
      | close hst h => exact .inl fun _ => (h _ _ _).trans (h _ _ _).symm
      | divide hst h => exact .inl fun _ => (h _ _ _).trans (h _ _ _).symm
      | pass depth' width hpos hwidth h =>
        have hfits := width_le_length hwidth
        have hlength : ((st :: ss).drop width).length = n - width := by rw [List.length_drop, hn]
        have hend : i + n = i + width + (n - width) := by omega
        have hfull (stopAtElse : Bool) : skip stopAtElse depth i (st :: ss ++ ts) =
            skip stopAtElse depth' (i + width) ((st :: ss).drop width ++ ts) := by
          rw [← List.drop_append_of_le_length hfits]
          exact h _ _ _ (meetsThen_append hcut)
        simp only [hfull, h _ _ _ rfl, hend]
        exact ih (n - width) (by omega) (not_seversThen_drop hcut width) depth' (i + width) hlength

/-- A scan that may stop at an `Else` does not fail. -/
theorem exists_skip_true (depth i : Nat) (ss : List Statement) :
    ∃ j, skip true depth i ss = .ok j := by
  fun_induction skip true depth i ss with
  | case1 | case2 | case7 | case10 => exact ⟨_, rfl⟩
  | case3 | case4 | case5 | case6 | case9 | case11 | case12 => assumption
  | case8 _ _ _ _ h => exact absurd rfl h

/-- A scan that may not stop at an `Else` fails where the other one does stop at it. -/
theorem skip_false_cases (h : skip true depth i ss = .ok j) :
    (∃ st, ss[j - i]? = some st ∧ st.isElse = true ∧
      skip false depth i ss = .error (.control .elseWithoutIf st.position)) ∨
    (ss[j - i]?).any (·.isElse) = false ∧ skip false depth i ss = .ok j := by
  induction hn : ss.length using Nat.strongRecOn generalizing ss depth i with
  | ind n ih =>
    cases ss with
    | nil =>
      cases h
      exact .inr ⟨rfl, rfl⟩
    | cons st ss =>
      cases scanStep depth st (st.meetsThen ss) with
      | close hst hskip =>
        rw [hskip] at h ⊢
        cases h
        exact .inr ⟨by simp [hst], rfl⟩
      | divide hst hskip =>
        rw [hskip] at h ⊢
        cases h
        exact .inl ⟨st, by simp, hst, rfl⟩
      | pass depth' width hpos hwidth hskip =>
        have hfits := width_le_length hwidth
        rw [hskip _ _ _ rfl] at h ⊢
        have hindex : ((st :: ss).drop width)[j - (i + width)]? = (st :: ss)[j - i]? := by
          have hle := le_of_skip h
          rw [List.getElem?_drop]
          congr 1
          omega
        rw [← hindex]
        exact ih (n - width) (by omega) h (by rw [List.length_drop, hn])

end Statement

namespace Place

open Statement

/-- The statement passes over the block behind it and may not stop at an `Else`: it is a `While`
whose condition does not hold, or the `Else` behind a branch that was run. The blocks `outer` stay
open, and the scene is then `s'`. -/
inductive Skips (p : Place) (r : Registry) (st : Statement) (s : Scene) :
    List Frame → Scene → Prop
  | whileLoop {test : Expr} {s' : Scene} (hst : st.instruction = .whileLoop test)
      (hthen : p.beforeThen = false) (htest : (test.test r).onScene s = .ok false s') :
      Skips p r st s p.frames s'
  | alternative {header : Nat} {outer : List Frame} (hst : st.instruction = .alternative)
      (hframes : p.frames = ⟨.cond false, header⟩ :: outer) : Skips p r st s outer s

/-- The statement stands before the index `n`, and in passing over a block the program fails at the
`Else` `wrong`, which has this index or a later one. -/
structure Trips (p : Place) (r : Registry) (n : Nat) (st : Statement) (s : Scene)
    (wrong : Statement) (s' : Scene) : Prop where
  before : p.index < n
  skips : ∃ outer, p.Skips r st s outer s'
  behind : ∃ j, n ≤ j ∧ p.skip 1 true = .ok j ∧ p.statements[j]? = some wrong
  isElse : wrong.isElse = true

/-- The program goes on behind the end of a block, if that is found. -/
def leap (outer : List Frame) (found : Except Fault Nat) : Except Fault Progress :=
  found.map fun i => .next (i + 1) outer

/-- Where `If` leads, given whether its condition holds. -/
def condTo (p : Place) (holds : Bool) : Except Fault Progress :=
  if p.beforeThen then
    if holds then .ok (.next (p.index + 2) (⟨.cond false, p.index⟩ :: p.frames))
    else (p.skip 2 true).map fun i => .next (i + 1)
      (if (p.statements[i]?).any (·.isElse) then ⟨.cond true, p.index⟩ :: p.frames else p.frames)
  else if holds then .ok p.advance
  else .ok (.next (p.index + 2) p.frames)

/-- Where `While` leads, given whether its condition holds. -/
def whileTo (p : Place) (holds : Bool) : Except Fault Progress :=
  if holds then .ok (.next (p.index + 1) (⟨.whileLoop, p.index⟩ :: p.frames))
  else leap p.frames (p.skip 1 false)

variable {p : Place} {r : Registry} {program : String} {st wrong : Statement} {s s' : Scene}
  {outer : List Frame} {n j : Nat}

/-- `If` tests its condition and then leads somewhere, with no further effect. -/
theorem runCond_eq (p : Place) (r : Registry) (test : Expr) :
    p.runCond r test = test.test r >>= fun holds => Action.ofExcept (p.condTo holds) := by
  unfold runCond condTo
  congr 1
  funext holds
  cases p.beforeThen <;> cases holds
  case true.false =>
    simp only [if_true, Bool.false_eq_true, if_false]
    cases p.skip 2 true with
    | error f => rfl
    | ok i =>
      change (ite _ (pure _) (pure _) : Action Progress) = pure (.next _ (ite _ _ _))
      split <;> rfl
  all_goals rfl

/-- `While` tests its condition and then leads somewhere, with no further effect. -/
theorem runWhile_eq (hthen : p.beforeThen = false) (r : Registry) (test : Expr) (pos : Position) :
    p.runWhile r test pos = test.test r >>= fun holds => Action.ofExcept (p.whileTo holds) := by
  simp only [runWhile, hthen, Bool.false_eq_true, if_false]
  congr 1
  funext holds
  cases holds with
  | true => rfl
  | false => unfold whileTo leap; cases p.skip 1 false <;> rfl

/-- A computation that follows an action, on scenes. -/
theorem onScene_bind_ofExcept {α β : Type} (a : Action α) (f : α → Except Fault β) (s : Scene) :
    (a >>= fun x => Action.ofExcept (f x)).onScene s =
      match a.onScene s with
      | .ok x s' => (Action.ofExcept (f x)).onScene s'
      | .error g s' => .error g s' :=
  Action.onScene_bind a (fun x => Action.unlogged_ofExcept (f x)) s

/-- A statement that passes over a block goes on behind its end, if there is one. -/
theorem Skips.step (h : p.Skips r st s outer s') :
    (p.step r program st).onScene s =
      (Action.ofExcept (leap outer (p.skip 1 false))).onScene s' := by
  unfold Place.step
  cases h with
  | whileLoop hst hthen htest =>
    simp only [hst, runWhile_eq hthen, onScene_bind_ofExcept, htest]
    rfl
  | alternative hst hframes =>
    simp only [hst, runElse, hframes]
    unfold leap
    cases p.skip 1 false <;> rfl

/-- From a place, too, a scan that may not stop at an `Else` fails where the other one does stop at
it. -/
theorem skip_false_cases (h : p.skip n true = .ok j) :
    (∃ st, p.statements[j]? = some st ∧ st.isElse = true ∧
      p.skip n false = .error (.control .elseWithoutIf st.position)) ∨
    (p.statements[j]?).any (·.isElse) = false ∧ p.skip n false = .ok j := by
  have hindex : (p.statements.drop (p.index + n))[j - (p.index + n)]? = p.statements[j]? := by
    have hle := le_of_skip h
    rw [List.getElem?_drop]
    congr 1
    omega
  rw [← hindex]
  exact Statement.skip_false_cases h

/-- A program that trips fails at the `Else`. -/
theorem Trips.step (h : p.Trips r n st s wrong s') :
    (p.step r program st).onScene s = .error (.control .elseWithoutIf wrong.position) s' := by
  obtain ⟨outer, hskips⟩ := h.skips
  obtain ⟨j, -, hj, hwrong⟩ := h.behind
  rw [hskips.step]
  rcases skip_false_cases hj with ⟨st', hst', -, hskip⟩ | ⟨hnot, -⟩
  · rw [hwrong] at hst'
    cases hst'
    rw [hskip]
    rfl
  · rw [hwrong, Option.any_some, h.isElse] at hnot
    cases hnot

/-- The same place in a program that has more statements. -/
def extend (p : Place) (ts : List Statement) : Place := { p with statements := p.statements ++ ts }

/-- The outcomes of a statement in two programs, of which the second has `n` statements: they are
the same, or both programs go on behind the second one's end. -/
inductive Parting (n : Nat) : Ending Progress → Ending Progress → Prop
  | alike (o : Ending Progress) : Parting n o o
  | behind {j k : Nat} {inner outer : List Frame} {s : Scene} (hj : n ≤ j) (hk : n ≤ k) :
      Parting n (.ok (.next j inner) s) (.ok (.next k outer) s)

variable {ts : List Statement}

/-- A statement before the cut finds the same `Then` in both programs. -/
theorem beforeThen_extend (hcut : ¬ SeversThen p.statements ts)
    (hst : p.statements[p.index]? = some st) (hheader : st.isHeader = true) :
    (p.extend ts).beforeThen = p.beforeThen := by
  obtain ⟨hi, hget⟩ := List.getElem?_eq_some_iff.mp hst
  have hrest := not_seversThen_drop hcut p.index
  rw [List.drop_eq_getElem_cons hi, hget] at hrest
  have hmeets := meetsThen_append hrest
  rw [← List.drop_append_of_le_length hi] at hmeets
  simpa [meetsThen, hheader, beforeThen, extend, List.head?_drop] using hmeets

private theorem getElem?_extend {j : Nat} (h : j < p.statements.length) :
    (p.extend ts).statements[j]? = p.statements[j]? := List.getElem?_append_left h

/-- The scan comes out alike in both programs, or it runs off the end of the one that is cut off and
stops behind the cut in the other. -/
theorem skip_extend (hcut : ¬ SeversThen p.statements ts) (n : Nat)
    (hn : p.index + n ≤ p.statements.length) :
    (∀ stopAtElse, (p.extend ts).skip n stopAtElse = p.skip n stopAtElse) ∨
      (∀ stopAtElse, p.skip n stopAtElse = .ok p.statements.length) ∧
        ∃ k, p.statements.length ≤ k ∧ (p.extend ts).skip n true = .ok k := by
  have hdrop : (p.statements ++ ts).drop (p.index + n) = p.statements.drop (p.index + n) ++ ts :=
    List.drop_append_of_le_length hn
  have hend : p.index + n + (p.statements.drop (p.index + n)).length = p.statements.length := by
    rw [List.length_drop]
    omega
  simp only [skip, extend, hdrop]
  rcases skip_append (not_seversThen_drop hcut (p.index + n)) 0 (p.index + n) with h | ⟨depth, h⟩
  · exact .inl h
  · rw [hend] at h
    obtain ⟨k, hk⟩ := exists_skip_true depth p.statements.length ts
    exact .inr ⟨fun stopAtElse => (h stopAtElse).1, k, le_of_skip hk, (h true).2.trans hk⟩

/-- `If` leads to the same place in both programs, or in both behind the cut. -/
theorem condTo_extend (hcut : ¬ SeversThen p.statements ts)
    (hst : p.statements[p.index]? = some st) (hheader : st.isHeader = true) (holds : Bool)
    (s : Scene) :
    Parting p.statements.length ((Action.ofExcept ((p.extend ts).condTo holds)).onScene s)
      ((Action.ofExcept (p.condTo holds)).onScene s) := by
  unfold condTo
  rw [beforeThen_extend hcut hst hheader]
  cases hbefore : p.beforeThen with
  | false => cases holds <;> exact .alike _
  | true =>
    cases holds with
    | true => exact .alike _
    | false =>
      have hi : p.index + 2 ≤ p.statements.length := by
        obtain ⟨t, ht, -⟩ := (Option.any_eq_true _ _).mp hbefore
        exact (List.getElem?_eq_some_iff.mp ht).1
      simp only [if_true, Bool.false_eq_true, if_false]
      obtain ⟨j, hj⟩ : ∃ j, p.skip 2 true = .ok j := exists_skip_true _ _ _
      rcases skip_extend hcut 2 hi with h | ⟨hshort, k, hk, hfull⟩
      · rw [h, hj]
        by_cases hlt : j < p.statements.length
        · simp only [Except.map, getElem?_extend hlt]
          exact .alike _
        · have hle := Nat.le_succ_of_le (Nat.not_lt.mp hlt)
          exact .behind hle hle
      · rw [hshort, hfull]
        exact .behind (Nat.le_succ_of_le hk) (Nat.le_succ _)

/-- What is passed over does not depend on what comes behind the cut. -/
theorem Skips.of_extend (hcut : ¬ SeversThen p.statements ts)
    (hst : p.statements[p.index]? = some st) (h : (p.extend ts).Skips r st s outer s') :
    p.Skips r st s outer s' := by
  cases h with
  | whileLoop hwhile hthen htest =>
    have hheader : st.isHeader = true := by simp [isHeader, hwhile]
    exact .whileLoop hwhile ((beforeThen_extend hcut hst hheader).symm.trans hthen) htest
  | alternative helse hframes => exact .alternative helse hframes

/-- A block that is not closed before the cut is over there. -/
theorem Trips.step_short (hcut : ¬ SeversThen p.statements ts)
    (hst : p.statements[p.index]? = some st)
    (h : (p.extend ts).Trips r p.statements.length st s wrong s') :
    ∃ j outer, (p.step r program st).onScene s = .ok (.next j outer) s' ∧
      p.statements.length ≤ j := by
  obtain ⟨outer, hskips⟩ := h.skips
  obtain ⟨j, hj, hfull, -⟩ := h.behind
  rw [(hskips.of_extend hcut hst).step]
  rcases skip_extend hcut 1 h.before with hsame | ⟨hshort, -⟩
  · rcases skip_false_cases ((hsame true).symm.trans hfull) with ⟨st', hst', -⟩ | ⟨-, hskip⟩
    · rw [List.getElem?_eq_none hj] at hst'
      cases hst'
    · exact ⟨j + 1, outer, by rw [hskip]; rfl, Nat.le_succ_of_le hj⟩
  · exact ⟨_, outer, by rw [hshort]; rfl, Nat.le_succ _⟩

/-- Passing over a block leads to the same place in both programs or in both behind the cut, unless
the whole program trips. -/
theorem Skips.step_extend (hcut : ¬ SeversThen p.statements ts)
    (hst : p.statements[p.index]? = some st) (h : (p.extend ts).Skips r st s outer s') :
    Parting p.statements.length (((p.extend ts).step r program st).onScene s)
        ((p.step r program st).onScene s) ∨
      ∃ wrong, (p.extend ts).Trips r p.statements.length st s wrong s' := by
  have hi : p.index < p.statements.length := (List.getElem?_eq_some_iff.mp hst).1
  rw [h.step, (h.of_extend hcut hst).step]
  rcases skip_extend hcut 1 hi with hsame | ⟨hshort, k, hk, hfull⟩
  · rw [hsame]
    exact .inl (.alike _)
  · rcases skip_false_cases hfull with ⟨wrong, hwrong, helse, -⟩ | ⟨-, hskip⟩
    · exact .inr ⟨wrong, hi, ⟨outer, h⟩, ⟨k, hk, hfull, hwrong⟩, helse⟩
    · rw [hshort, hskip]
      exact .inl (.behind (Nat.le_succ_of_le hk) (Nat.le_succ _))

/-- A statement before the cut leads to the same place in both programs or in both behind the cut,
unless the whole program trips. Only a scan that may not stop at an `Else` can part the programs; of
the others, `If` alone looks across the cut. -/
theorem step_extend (hcut : ¬ SeversThen p.statements ts)
    (hst : p.statements[p.index]? = some st) (r : Registry) (program : String) (s : Scene) :
    Parting p.statements.length (((p.extend ts).step r program st).onScene s)
        ((p.step r program st).onScene s) ∨
      ∃ wrong s', (p.extend ts).Trips r p.statements.length st s wrong s' := by
  by_cases hskips : ∃ outer s', (p.extend ts).Skips r st s outer s'
  · obtain ⟨outer, s', h⟩ := hskips
    exact (h.step_extend hcut hst).imp_right fun ⟨wrong, htrips⟩ => ⟨wrong, s', htrips⟩
  · left
    have hthen (hheader : st.isHeader = true) := beforeThen_extend hcut hst hheader
    unfold step
    cases hinstruction : st.instruction with
    | cond test =>
      have hheader : st.isHeader = true := by simp [isHeader, hinstruction]
      simp only [runCond_eq, onScene_bind_ofExcept]
      cases (test.test r).onScene s with
      | error f s' => exact .alike _
      | ok holds s' => exact condTo_extend hcut hst hheader holds s'
    | whileLoop test =>
      have hthen := hthen (by simp [isHeader, hinstruction])
      cases hbefore : p.beforeThen with
      | true =>
        simp only [runWhile, hthen, hbefore]
        exact .alike _
      | false =>
        rw [hbefore] at hthen
        simp only [runWhile_eq hthen, runWhile_eq hbefore, onScene_bind_ofExcept]
        cases htest : (test.test r).onScene s with
        | error f s' => exact .alike _
        | ok holds s' =>
          cases holds with
          | true => exact .alike _
          | false => exact absurd ⟨_, s', .whileLoop hinstruction hthen htest⟩ hskips
    | repeatLoop test =>
      simp only [runRepeat, hthen (by simp [isHeader, hinstruction])]
      exact .alike _
    | alternative =>
      simp only [runElse]
      split
      · next header outer hframes =>
        exact absurd ⟨outer, s, .alternative hinstruction hframes⟩ hskips
      · next hnot =>
        split
        · next header outer hframes => exact absurd hframes (hnot header outer)
        · exact .alike _
    | consequent | blockEnd | stop | ret | display | input | prompt | call | expression =>
      exact .alike _

end Place

namespace Machine

open Statement

/-- Two runs are in the same state, but for the outermost programs, which are `p` and `q`. -/
inductive Alongside (p q : Program) : Machine → Machine → Prop
  | ended (o : Ending Signal) : Alongside p q (ended o) (ended o)
  | alone (i : Nat) (frames : List Frame) (s : Scene) :
      Alongside p q (running ⟨p, i, frames⟩ [] s) (running ⟨q, i, frames⟩ [] s)
  | waiting (a : Activation) (inner : List Activation) (i : Nat) (frames : List Frame) (s : Scene) :
      Alongside p q (running a (inner ++ [⟨p, i, frames⟩]) s)
        (running a (inner ++ [⟨q, i, frames⟩]) s)

/-- No program waits, and the one that runs has come to the index `n` or beyond. -/
def Beyond (n : Nat) : Machine → Prop
  | running a [] _ => n ≤ a.index
  | _ => False

/-- No program waits, and the one that runs is about to fail at an `Else` behind the index `n`. -/
inductive Trips (r : Registry) (n : Nat) : Machine → Statement → Scene → Prop
  | intro {a : Activation} {st wrong : Statement} {s s' : Scene} (hst : a.statement? = some st)
      (h : a.place.Trips r n st s wrong s') : Trips r n (running a [] s) wrong s'

/-- The outermost program leaves its first `n` statements, in the scene `s`. -/
inductive AtCut (r : Registry) (n : Nat) : Machine → Scene → Prop
  | beyond {m : Machine} (h : m.Beyond n) : AtCut r n m m.scene
  | trips {m : Machine} {wrong : Statement} {s : Scene} (h : m.Trips r n wrong s) : AtCut r n m s

/-- Both runs are beyond the index `n`, in the same scene. -/
inductive BothBeyond (p q : Program) (n : Nat) : Machine → Machine → Prop
  | intro {i j : Nat} {inner outer : List Frame} {s : Scene} (hi : n ≤ i) (hj : n ≤ j) :
      BothBeyond p q n (running ⟨p, i, inner⟩ [] s) (running ⟨q, j, outer⟩ [] s)

variable {c : Context} {below n : Nat} {name source source' : String} {ss ts : List Statement}
  {m m' : Machine} {s : Scene}

private theorem BothBeyond.beyond {p q : Program} (h : BothBeyond p q n m m') : m.Beyond n := by
  cases h with
  | intro hi hj => exact hi

/-- Both programs start side by side. -/
theorem alongside_enter (p q : Program) (s : Scene) :
    Alongside p q (enter below p [] s) (enter below q [] s) := by
  unfold enter
  split
  · exact .ended _
  · exact .alone 0 [] s

/-- A program that was called runs alike above both programs, and both go on behind the call. -/
theorem alongside_under (p q : Program) (i : Nat) (frames : List Frame) (m : Machine) :
    Alongside p q (m.under [⟨p, i, frames⟩]) (m.under [⟨q, i, frames⟩]) := by
  match m with
  | running a inner s => exact .waiting a inner i frames s
  | .ended (.error f s) => exact .ended _
  | .ended (.ok .stop s) => exact .ended _
  | .ended (.ok .none s) => exact .alone (i + 1) frames s
  | .ended (.ok .ret s) => exact .alone (i + 1) frames s

/-- Outcomes that part keep two runs side by side, or take both beyond the cut. -/
private theorem proceed_parting {o o' : Ending Progress} (h : Place.Parting n o o') (p q : Program)
    (i : Nat) (frames : List Frame) :
    Alongside p q (proceed ⟨p, i, frames⟩ [] o) (proceed ⟨q, i, frames⟩ [] o') ∨
      BothBeyond p q n (proceed ⟨p, i, frames⟩ [] o) (proceed ⟨q, i, frames⟩ [] o') := by
  cases h with
  | behind hj hk => exact .inr (.intro hj hk)
  | alike =>
    left
    match o with
    | .error f s => exact .ended _
    | .ok (.next j frames') s => exact .alone j frames' s
    | .ok (.done signal) s =>
      simp only [proceed, leave_nil]
      exact .ended _

/-- One statement keeps two runs side by side, or takes both of them beyond the cut. A callee does
not see who called it, so it is entered as if it ran alone. -/
theorem Alongside.step (hcut : ¬ SeversThen ss ts)
    (h : Alongside ⟨name, source, ss ++ ts⟩ ⟨name, source', ss⟩ m m')
    (hm : ∀ s, ¬ m.AtCut c.commands ss.length s) :
    Alongside ⟨name, source, ss ++ ts⟩ ⟨name, source', ss⟩ (m.step c below) (m'.step c below) ∨
      BothBeyond ⟨name, source, ss ++ ts⟩ ⟨name, source', ss⟩ ss.length (m.step c below)
        (m'.step c below) := by
  cases h with
  | ended o => exact .inl (.ended o)
  | waiting a inner i frames s =>
    have hunder (p : Program) :
        (running a (inner ++ [⟨p, i, frames⟩]) s).step c below =
          ((running a inner s).step c (below + 1)).under [⟨p, i, frames⟩] :=
      step_under [⟨p, i, frames⟩] a inner s
    rw [hunder, hunder]
    exact .inl (alongside_under _ _ i frames _)
  | alone i frames s =>
    have hi : i < ss.length := Nat.not_le.mp fun hle => hm s (.beyond hle)
    obtain ⟨st, hst⟩ : ∃ st, (Activation.mk ⟨name, source', ss⟩ i frames).statement? = some st :=
      ⟨_, List.getElem?_eq_getElem hi⟩
    have hfull : (Activation.mk ⟨name, source, ss ++ ts⟩ i frames).statement? = some st :=
      (List.getElem?_append_left hi).trans hst
    by_cases hcall : ∃ callee, st.instruction = .call callee
    · obtain ⟨callee, hcall⟩ := hcall
      left
      cases hname : c.programs[callee]? with
      | none =>
        rw [step_undefined hfull hcall hname, step_undefined hst hcall hname]
        exact .ended _
      | some q =>
        have henter (p : Program) : enter below q [⟨p, i, frames⟩] s =
            (enter (below + 1) q [] s).under [⟨p, i, frames⟩] :=
          enter_append q [] [⟨p, i, frames⟩] s
        rw [step_call hfull hcall hname, step_call hst hcall hname, henter, henter]
        exact alongside_under _ _ i frames (enter (below + 1) q [] s)
    · have hcall : ∀ callee, st.instruction ≠ .call callee := not_exists.mp hcall
      rw [step_other hfull hcall, step_other hst hcall]
      rcases Place.step_extend (p := ⟨ss, i, frames⟩) hcut hst c.commands name s with
        hparting | ⟨wrong, s', htrips⟩
      · exact proceed_parting hparting _ _ i frames
      · exact absurd (.trips (.intro hfull htrips)) (hm s')

/-- The two runs are side by side until the whole program leaves the first part, or both go beyond
the cut at once. -/
theorem run_cut (hcut : ¬ SeversThen ss ts) (c : Context) (below : Nat)
    (name source source' : String) (s : Scene) {n : Nat}
    (hbefore : ∀ k < n, ∀ s', ¬ ((enter below ⟨name, source, ss ++ ts⟩ [] s).run c below k).AtCut
      c.commands ss.length s') :
    Alongside ⟨name, source, ss ++ ts⟩ ⟨name, source', ss⟩
        ((enter below ⟨name, source, ss ++ ts⟩ [] s).run c below n)
        ((enter below ⟨name, source', ss⟩ [] s).run c below n) ∨
      BothBeyond ⟨name, source, ss ++ ts⟩ ⟨name, source', ss⟩ ss.length
        ((enter below ⟨name, source, ss ++ ts⟩ [] s).run c below n)
        ((enter below ⟨name, source', ss⟩ [] s).run c below n) := by
  induction n with
  | zero => exact .inl (alongside_enter _ _ s)
  | succ n ih =>
    have hn := hbefore n (Nat.lt_succ_self n)
    rw [run_step, run_step]
    rcases ih fun k hk => hbefore k (Nat.lt_succ_of_lt hk) with halong | hboth
    · exact halong.step hcut hn
    · exact absurd (.beyond hboth.beyond) (hn _)

/-- A program that has run off its end is over, whatever blocks are open. -/
theorem step_of_length_le {p : Program} {i : Nat} (hi : p.statements.length ≤ i)
    (frames : List Frame) (s : Scene) :
    (running ⟨p, i, frames⟩ [] s).step c below = ended (.ok .none s) := by
  have hst : (Activation.mk p i frames).statement? = none := List.getElem?_eq_none hi
  rw [step_end hst, leave_nil]

/-- Beyond the cut the program that is cut off ends silently. -/
theorem step_of_beyond
    (h : Alongside ⟨name, source, ss ++ ts⟩ ⟨name, source', ss⟩ m m' ∨
      BothBeyond ⟨name, source, ss ++ ts⟩ ⟨name, source', ss⟩ ss.length m m')
    (hm : m.Beyond ss.length) : m'.step c below = ended (.ok .none m.scene) := by
  rcases h with halong | hboth
  · cases halong with
    | ended o => cases hm
    | alone i frames s => exact step_of_length_le (p := ⟨name, source', ss⟩) hm frames s
    | waiting a inner i frames s => cases inner <;> cases hm
  · cases hboth with
    | intro hi hj => exact step_of_length_le (p := ⟨name, source', ss⟩) hj _ _

/-- Where the whole program trips, the program that is cut off ends silently. -/
theorem step_of_trips (hcut : ¬ SeversThen ss ts)
    (h : Alongside ⟨name, source, ss ++ ts⟩ ⟨name, source', ss⟩ m m') {wrong : Statement}
    {s' : Scene} (hm : m.Trips c.commands ss.length wrong s') :
    wrong ∈ ts ∧ m.step c below = ended (.error (.control .elseWithoutIf wrong.position) s') ∧
      (m'.step c below).step c below = ended (.ok .none s') := by
  cases h with
  | ended o => cases hm
  | waiting a inner i frames s => cases inner <;> cases hm
  | alone i frames s =>
    cases hm with
    | @intro _ st _ _ _ hfull htrips =>
      have hi : i < ss.length := htrips.before
      have hst : (Activation.mk ⟨name, source', ss⟩ i frames).statement? = some st :=
        (List.getElem?_append_left hi).symm.trans hfull
      have hcall : ∀ callee, st.instruction ≠ .call callee := by
        obtain ⟨outer, hskips⟩ := htrips.skips
        cases hskips <;> simp_all
      refine ⟨?_, ?_, ?_⟩
      · obtain ⟨j, hj, -, hwrong⟩ := htrips.behind
        have hwrong : (ss ++ ts)[j]? = some wrong := hwrong
        rw [List.getElem?_append_right hj] at hwrong
        exact List.mem_of_getElem? hwrong
      · rw [step_other hfull hcall, htrips.step]
        rfl
      · obtain ⟨j, outer, hstep, hj⟩ : ∃ j outer,
            (Place.step ⟨ss, i, frames⟩ c.commands name st).onScene s = .ok (.next j outer) s' ∧
              ss.length ≤ j :=
          Place.Trips.step_short (p := ⟨ss, i, frames⟩) hcut hst htrips
        rw [step_other hst hcall]
        change (proceed _ []
          ((Place.step ⟨ss, i, frames⟩ c.commands name st).onScene s)).step c below = _
        rw [hstep]
        exact step_of_length_le (p := ⟨name, source', ss⟩) hj outer s'

/-- A program that is about to trip has not come to the cut. -/
private theorem Trips.not_beyond {r : Registry} {wrong : Statement} (h : m.Trips r n wrong s) :
    ¬ m.Beyond n := by
  cases h with
  | intro hst htrips => exact Nat.not_le.mpr htrips.before

/-- A program that is cut off ends silently where the whole program leaves the first part. -/
theorem ends_of_atCut (hcut : ¬ SeversThen ss ts) {s' : Scene}
    (hbefore : ∀ k < n, ∀ s', ¬ ((enter below ⟨name, source, ss ++ ts⟩ [] s).run c below k).AtCut
      c.commands ss.length s')
    (h : ((enter below ⟨name, source, ss ++ ts⟩ [] s).run c below n).AtCut c.commands ss.length
      s') :
    Ends c below ⟨name, source', ss⟩ s (.ok .none s') := by
  have hrun := run_cut hcut c below name source source' s hbefore
  rw [ends_iff_run]
  cases h with
  | beyond hbeyond => exact ⟨n + 1, by rw [run_step, step_of_beyond hrun hbeyond]⟩
  | trips htrips =>
    have halong := hrun.resolve_right fun hboth => htrips.not_beyond hboth.beyond
    exact ⟨n + 2, by rw [run_step, run_step, (step_of_trips hcut halong htrips).2.2]⟩

/-- Runs side by side end alike. -/
theorem Alongside.ended_iff {p q : Program} (h : Alongside p q m m') (o : Ending Signal) :
    m = .ended o ↔ m' = .ended o := by
  cases h with
  | ended o' => exact Iff.rfl
  | alone | waiting => simp

/-- A program that is cut off ends like the whole program if that never leaves the first part. -/
theorem ends_iff_of_never_atCut (hcut : ¬ SeversThen ss ts)
    (hnever : ∀ n s', ¬ ((enter below ⟨name, source, ss ++ ts⟩ [] s).run c below n).AtCut
      c.commands ss.length s') (o : Ending Signal) :
    Ends c below ⟨name, source', ss⟩ s o ↔ Ends c below ⟨name, source, ss ++ ts⟩ s o := by
  rw [ends_iff_run, ends_iff_run]
  refine exists_congr fun n => ?_
  rcases run_cut hcut c below name source source' s fun k _ => hnever k with halong | hboth
  · exact (halong.ended_iff o).symm
  · exact absurd (.beyond hboth.beyond) (hnever n _)

end Machine

/-- A program that is cut off between two statements, so that no `Then` is severed from the `If`,
`While` or `Repeat` before it, runs side by side with the whole program: after any number of steps
the two are in the same state, but for the program itself, as long as the whole program has not left
the first part. It leaves it by coming to a statement behind the cut, and by failing at an `Else`
behind the cut while it passes over a block. At that point the program that is cut off ends
silently, whatever blocks are open, and it ends like the whole program if that never leaves the
first part. -/
theorem cut_off_runs_alongside {ss ts : List Statement} (hcut : ¬ Statement.SeversThen ss ts)
    (c : Context) (below : Nat) (name source source' : String) (s : Scene) :
    let full := fun n => (Machine.enter below ⟨name, source, ss ++ ts⟩ [] s).run c below n
    let short := fun n => (Machine.enter below ⟨name, source', ss⟩ [] s).run c below n
    (∀ n, (∀ k < n, ∀ s', ¬ (full k).AtCut c.commands ss.length s') →
      (¬ (full n).Beyond ss.length →
        Machine.Alongside ⟨name, source, ss ++ ts⟩ ⟨name, source', ss⟩ (full n) (short n)) ∧
      ((full n).Beyond ss.length → short (n + 1) = .ended (.ok .none (full n).scene)) ∧
      ∀ wrong s', (full n).Trips c.commands ss.length wrong s' →
        wrong ∈ ts ∧ full (n + 1) = .ended (.error (.control .elseWithoutIf wrong.position) s') ∧
          short (n + 2) = .ended (.ok .none s')) ∧
    ∀ o, Ends c below ⟨name, source', ss⟩ s o ↔
      (∃ n s', (∀ k < n, ∀ s', ¬ (full k).AtCut c.commands ss.length s') ∧
        (full n).AtCut c.commands ss.length s' ∧ o = .ok .none s') ∨
      (∀ n s', ¬ (full n).AtCut c.commands ss.length s') ∧
        Ends c below ⟨name, source, ss ++ ts⟩ s o := by
  intro full short
  have hrun (n : Nat) (hbefore : ∀ k < n, ∀ s', ¬ (full k).AtCut c.commands ss.length s') :=
    Machine.run_cut hcut c below name source source' s hbefore
  refine ⟨fun n hbefore => ⟨fun hn => ?_, fun hn => ?_, fun wrong s' htrips => ?_⟩, fun o => ?_⟩
  · exact (hrun n hbefore).resolve_right fun hboth => hn hboth.beyond
  · exact (Machine.run_step n _).trans (Machine.step_of_beyond (hrun n hbefore) hn)
  · have halong := (hrun n hbefore).resolve_right fun hboth => htrips.not_beyond hboth.beyond
    obtain ⟨hwrong, hfull, hshort⟩ := Machine.step_of_trips hcut halong htrips
    refine ⟨hwrong, (Machine.run_step n _).trans hfull, ?_⟩
    exact (Machine.run_step (n + 1) _).trans ((congrArg _ (Machine.run_step n _)).trans hshort)
  · by_cases hleaves : ∃ n s', (full n).AtCut c.commands ss.length s'
    · classical
      obtain ⟨s', hs'⟩ := Nat.find_spec hleaves
      have hbefore : ∀ k < Nat.find hleaves, ∀ s', ¬ (full k).AtCut c.commands ss.length s' :=
        fun k hk => not_exists.mp (Nat.find_min hleaves hk)
      constructor
      · intro ho
        exact .inl ⟨_, s', hbefore, hs', ho.unique (Machine.ends_of_atCut hcut hbefore hs')⟩
      · rintro (⟨n, s', hbefore, hs', rfl⟩ | ⟨hnever, -⟩)
        · exact Machine.ends_of_atCut hcut hbefore hs'
        · exact absurd hs' (hnever _ s')
    · have hnever : ∀ n s', ¬ (full n).AtCut c.commands ss.length s' :=
        fun n s' h => hleaves ⟨n, s', h⟩
      rw [Machine.ends_iff_of_never_atCut hcut hnever]
      constructor
      · exact fun h => .inr ⟨hnever, h⟩
      · rintro (⟨n, s', -, hs', -⟩ | ⟨-, h⟩)
        · exact absurd hs' (hnever n s')
        · exact h

/-- A program that is cut off in two open loops, where the whole program skips the inner one and
fails at an `Else` behind the cut. -/
theorem cut_off_runs_alongside_open_loops :
    let st (i : Instruction) : Statement := ⟨i, .start⟩
    let ss := [st (.repeatLoop (.var 'A' .start)), st (.whileLoop (.var 'A' .start))]
    let ts := [st .stop, st .alternative]
    let c : Context := ⟨∅, ∅⟩
    let s : Scene := ⟨.fresh, .new (.stream "")⟩
    let full := Machine.enter 0 ⟨"P", "", ss ++ ts⟩ [] s
    let short := Machine.enter 0 ⟨"P", "", ss⟩ [] s
    ¬ Statement.SeversThen ss ts ∧ (∀ s', ¬ full.AtCut c.commands 2 s') ∧
      (full.run c 0 1).Trips c.commands 2 (st .alternative) s ∧
      full.run c 0 2 = .ended (.error (.control .elseWithoutIf .start) s) ∧
      short.run c 0 3 = .ended (.ok .none s) := by
  intro st ss ts c s full short
  have hcut : ¬ Statement.SeversThen ss ts := by
    rintro ⟨last, hlast, hthen⟩
    cases hlast
    cases hthen
  have hstart : ∀ s', ¬ full.AtCut c.commands 2 s' := by
    intro s' h
    have hfirst : full = .running (.start ⟨"P", "", ss ++ ts⟩) [] s := rfl
    rw [hfirst] at h
    cases h with
    | beyond hbeyond => exact Nat.not_succ_le_zero 1 hbeyond
    | trips htrips =>
      obtain ⟨hst, htrips⟩ := htrips
      cases hst
      obtain ⟨outer, hskips⟩ := htrips.skips
      cases hskips with
      | whileLoop hst => cases hst
      | alternative hst => cases hst
  have htest : ((Expr.var 'A' .start).test c.commands).onScene s = .ok false s := by
    have hzero : Number.isZero .zero = true := by decide
    change EStateM.Result.ok (!Number.isZero .zero) s = _
    rw [hzero]
    rfl
  have hbehind : (full.run c 0 1).Trips c.commands 2 (st .alternative) s :=
    .intro rfl ⟨by decide, ⟨_, .whileLoop rfl rfl htest⟩, ⟨3, by decide, rfl, rfl⟩, rfl⟩
  obtain ⟨hrun, -⟩ := cut_off_runs_alongside hcut c 0 "P" "" "" s
  obtain ⟨-, -, htrips⟩ := hrun 1 fun k hk => by
    obtain rfl : k = 0 := by omega
    exact hstart
  obtain ⟨-, hfull, hshort⟩ := htrips _ _ hbehind
  exact ⟨hcut, hstart, hbehind, hfull, hshort⟩

end Handheld
