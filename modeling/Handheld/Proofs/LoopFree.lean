import Handheld.Builtin
import Handheld.Proofs.Calls
import Handheld.Proofs.OpenBlocks

/-!
# Programs without loops

Where no program has a `While` or a `Repeat`, no statement leads back, be the block words matched or
not. A program then comes to each of its statements at most once between being called and being
left. Programs can still call each other in circles, but only up to the limit, and none of them has
more statements before it than the longest program, so every run ends.
-/

namespace Handheld

/-- The instruction opens a loop. -/
def Instruction.isLoop : Instruction → Bool
  | whileLoop _ | repeatLoop _ => true
  | _ => false

/-- No statement of the program opens a loop. -/
def Program.LoopFree (p : Program) : Prop := ∀ st ∈ p.statements, st.instruction.isLoop = false

/-- No program that can be called opens a loop. -/
def Context.LoopFree (c : Context) : Prop :=
  ∀ (name : String) (q : Program), c.programs[name]? = some q → q.LoopFree

/-- No block of a program without loops is one. -/
theorem Program.LoopFree.not_openedAt {p : Program} (hp : p.LoopFree) {block : Block} {i : Nat}
    (hblock : block.OpenedAt p.statements i) : ∃ inElse, block = .cond inElse := by
  have hnone {instruction : Instruction}
      (h : (p.statements[i]?).map (·.instruction) = some instruction) :
      instruction.isLoop = false := by
    obtain ⟨st, hst, rfl⟩ := Option.map_eq_some_iff.mp h
    exact hp st (List.mem_of_getElem? hst)
  cases block with
  | cond inElse => exact ⟨inElse, rfl⟩
  | whileLoop =>
    obtain ⟨test, htest⟩ := hblock
    cases hnone htest
  | repeatLoop test => cases hnone hblock

namespace Activation

/-- The program has no loop, and the open blocks fit it. -/
structure Straight (a : Activation) : Prop where
  /-- The open blocks fit. -/
  framed : a.place.Framed
  /-- There is no loop. -/
  loopFree : a.program.LoopFree

/-- A program without loops is straight at its start. -/
theorem straight_start {p : Program} (hp : p.LoopFree) : (start p).Straight :=
  ⟨Place.Framed.start p.statements, hp⟩

namespace Straight

variable {a : Activation}

/-- A straight program stays so behind a call. -/
theorem next (h : a.Straight) : a.next.Straight :=
  ⟨h.framed.onward (Nat.le_succ a.index), h.loopFree⟩

/-- Every statement leads further down: only the end of a loop leads back, and no block is one. -/
theorem lt_of_leads (h : a.Straight) {j : Nat} {frames : List Frame}
    (hleads : a.place.Leads (.next j frames)) : a.index < j := by
  have hinnermost {f : Frame} {outer : List Frame} (hframes : a.place.frames = f :: outer) :
      ∃ inElse, f.block = .cond inElse :=
    h.loopFree.not_openedAt (h.framed.opened f (hframes ▸ List.mem_cons_self))
  cases hleads with
  | onward hj => exact hj
  | opened hblock hj => exact hj
  | closed hframes hj => exact hj
  | retested hframes hblock =>
    obtain ⟨inElse, hcond⟩ := hinnermost hframes
    rw [hblock] at hcond
    cases hcond
  | repeated hframes hblock =>
    obtain ⟨inElse, hcond⟩ := hinnermost hframes
    rw [hblock] at hcond
    cases hcond

/-- A straight program stays so wherever a statement leads. -/
theorem of_leads (h : a.Straight) {j : Nat} {frames : List Frame}
    (hleads : a.place.Leads (.next j frames)) :
    Straight { a with index := j, frames := frames } :=
  ⟨h.framed.next hleads, h.loopFree⟩

end Straight

end Activation

/-- In a run of programs without loops there is never an open loop. -/
theorem straight_invariant {c : Context} (hc : c.LoopFree) :
    Machine.Invariant c Activation.Straight (fun _ => True) fun _ => True where
  start name q hq := Activation.straight_start (hc name q hq)
  next a ha := ha.next
  step a st s ha _ hst := by
    cases hstep : (a.place.step c.commands a.program.name st).onScene s with
    | error f s' => exact ⟨trivial, trivial⟩
    | ok progress s' =>
      have hleads : a.place.Leads progress := Place.leads_of_step hst hstep
      cases progress with
      | done signal => trivial
      | next j frames => exact ⟨ha.of_leads hleads, trivial⟩
  undefined _ _ := trivial
  depth := trivial

/-- There is a greatest number of statements that a stored program has. -/
theorem exists_longest (programs : Programs) :
    ∃ longest, ∀ (name : String) (q : Program), programs[name]? = some q →
      q.statements.length ≤ longest := by
  let lengths := programs.toList.map fun entry => entry.2.statements.length
  refine ⟨lengths.max?.getD 0, fun name q hq => ?_⟩
  have hmem : (name, q) ∈ programs.toList := Std.TreeMap.mem_toList_iff_getElem?_eq_some.mpr hq
  exact List.le_max?_getD_of_mem (List.mem_map.mpr ⟨(name, q), hmem, rfl⟩)

/-- Enough statements for a program that is the `depth`-th running one and has `left` statements
before it, where no program has more than `longest`. -/
def fuelFor (longest depth left : Nat) : Nat := (maxCallDepth - depth) * (longest + 1) + left

/-- A program that is called needs less than its caller, which has the call before it. -/
theorem fuelFor_callee {longest depth left length : Nat} (hdepth : depth < maxCallDepth)
    (hlength : length ≤ longest) :
    fuelFor longest (depth + 1) length < fuelFor longest depth (left + 1) := by
  obtain ⟨room, hroom⟩ : ∃ room, maxCallDepth - depth = room + 1 :=
    ⟨maxCallDepth - depth - 1, by omega⟩
  have hless : maxCallDepth - (depth + 1) = room := by omega
  unfold fuelFor
  rw [hroom, hless, Nat.succ_mul]
  omega

/-- Given enough fuel, a run without loops ends. It only moves forward, so there is always a
statement less to pay for. -/
theorem exists_runScene {c : Context} (hc : c.LoopFree) {longest : Nat}
    (hlongest : ∀ (name : String) (q : Program), c.programs[name]? = some q →
      q.statements.length ≤ longest) {fuel depth : Nat} {a : Activation} (ha : a.Straight) (s : Scene)
    (hfuel : fuelFor longest depth (a.program.statements.length - a.index) < fuel) :
    ∃ o, runScene c fuel depth a.program a.index a.frames s = some o := by
  induction fuel generalizing depth a s with
  | zero => exact absurd hfuel (Nat.not_lt_zero _)
  | succ fuel ih =>
    cases hst : a.program.statements[a.index]? with
    | none => exact ⟨_, runScene_end hst fuel depth a.frames s⟩
    | some st =>
      obtain ⟨hindex, -⟩ := List.getElem?_eq_some_iff.mp hst
      obtain ⟨left, hleft⟩ : ∃ left, a.program.statements.length - a.index = left + 1 :=
        ⟨a.program.statements.length - a.index - 1, by omega⟩
      rw [hleft] at hfuel
      have hnext {j : Nat} (hj : a.index < j) :
          fuelFor longest depth (a.program.statements.length - j) < fuel := by
        have hle : a.program.statements.length - j ≤ left := by omega
        unfold fuelFor at hfuel ⊢
        omega
      by_cases hcall : ∃ name, st.instruction = .call name
      · obtain ⟨name, hcall⟩ := hcall
        cases hname : c.programs[name]? with
        | none => exact ⟨_, runScene_undefined hst hcall hname fuel depth a.frames s⟩
        | some callee =>
          have hfree : callee.LoopFree := hc name callee hname
          have hlength := hlongest name callee hname
          have hcallee : ∃ o, executeScene c fuel depth callee s = some o := by
            by_cases hdepth : depth < maxCallDepth
            · rw [executeScene_of_lt hdepth]
              refine ih (Activation.straight_start hfree) s ?_
              have hless : fuelFor longest (depth + 1) callee.statements.length <
                  fuelFor longest depth (left + 1) := fuelFor_callee hdepth hlength
              change fuelFor longest (depth + 1) callee.statements.length < fuel
              omega
            · exact ⟨_, executeScene_of_le (Nat.not_lt.mp hdepth) c fuel callee s⟩
          obtain ⟨o, ho⟩ := hcallee
          rw [runScene_call hst hcall hname, ho, Option.bind_some]
          cases o with
          | error f s' => exact ⟨_, rfl⟩
          | ok signal s' =>
            rw [Ending.andThen_ok]
            split
            · exact ⟨_, rfl⟩
            · exact ih ha.next s' (hnext (Nat.lt_succ_self a.index))
      · rw [runScene_step hst (not_exists.mp hcall)]
        cases hstep : (a.place.step c.commands a.program.name st).onScene s with
        | error f s' => exact ⟨_, congrArg (Ending.andThen · _) hstep⟩
        | ok progress s' =>
          have hleads : a.place.Leads progress := Place.leads_of_step hst hstep
          change ∃ o, Ending.andThen ((a.place.step c.commands a.program.name st).onScene s) _ = some o
          rw [hstep, Ending.andThen_ok]
          cases progress with
          | done signal => exact ⟨_, rfl⟩
          | next j frames => exact ih (ha.of_leads hleads) s' (hnext (ha.lt_of_leads hleads))

/-- A run without loops ends. -/
theorem exists_ends {c : Context} (hc : c.LoopFree) {p : Program} (hp : p.LoopFree)
    (below : Nat) (s : Scene) : ∃ o, Ends c below p s o := by
  by_cases hdepth : below < maxCallDepth
  · obtain ⟨longest, hlongest⟩ := exists_longest c.programs
    let fuel := fuelFor longest (below + 1) p.statements.length + 1
    have hrun : ∃ o, runScene c fuel (below + 1) p 0 [] s = some o :=
      exists_runScene hc hlongest (Activation.straight_start hp) s (Nat.lt_succ_self _)
    obtain ⟨o, ho⟩ := hrun
    exact ⟨o, fuel, (executeScene_of_lt hdepth ..).trans ho⟩
  · exact ⟨_, 0, executeScene_of_le (Nat.not_lt.mp hdepth) c 0 p s⟩

namespace Machine

variable {c : Context} {below : Nat}

/-- What one statement does to a running program `b` above the chain `callers`, as long as `b` is
not left: it moves `b` down, or it leaves `b` waiting for a program above. -/
theorem step_above {m : Machine} {inner callers : List Activation} {b : Activation}
    (hstraight : ∀ a ∈ m.activations, a.Straight)
    (hm : m.activations = inner ++ b :: callers)
    (hheight : callers.length < (m.step c below).activations.length) :
    ∃ inner' b', (m.step c below).activations = inner' ++ b' :: callers ∧
      b'.program = b.program ∧ (b.index < b'.index ∨ b'.index = b.index ∧ inner' ≠ []) := by
  cases m with
  | ended o => simp [activations] at hm
  | running a outer s =>
    have ha : a.Straight := hstraight a List.mem_cons_self
    have hyields := step_yields c below a outer s
    generalize (running a outer s).step c below = m' at hyields hheight
    change a :: outer = inner ++ b :: callers at hm
    cases hyields with
    | onward hleads =>
      have hlt := ha.lt_of_leads hleads
      cases inner with
      | nil =>
        cases hm
        exact ⟨[], _, rfl, rfl, .inl hlt⟩
      | cons d inner =>
        cases hm
        exact ⟨_ :: inner, b, rfl, rfl, .inr ⟨rfl, by simp⟩⟩
    | @called q hq hroom =>
      refine ⟨.start q :: inner, b, ?_, rfl, .inr ⟨rfl, by simp⟩⟩
      simp only [activations, hm, List.cons_append]
    | @returned d outer' hfinished houter =>
      subst houter
      cases inner with
      | nil =>
        cases hm
        exact absurd hheight (Nat.lt_irrefl _)
      | cons e inner =>
        cases inner with
        | nil =>
          cases hm
          exact ⟨[], b.next, rfl, rfl, .inl (Nat.lt_succ_self b.index)⟩
        | cons e' inner =>
          cases hm
          exact ⟨d.next :: inner, b, rfl, rfl, .inr ⟨rfl, by simp⟩⟩
    | finished | stopped | refused | undefined | failed => exact absurd hheight (Nat.not_lt_zero _)

/-- As long as a running program is not left, it moves down only. Where the chain is as long as
before, nothing stands above it. -/
theorem run_above {m : Machine} {callers : List Activation} {a : Activation} {s : Scene}
    (hm : m = running a callers s) (k : Nat)
    (hstraight : ∀ j, ∀ b ∈ (m.run c below j).activations, b.Straight)
    (hheight : ∀ j ≤ k + 1, callers.length < (m.run c below j).activations.length) :
    ∃ inner b, (m.run c below (k + 1)).activations = inner ++ b :: callers ∧
      b.program = a.program ∧ (a.index < b.index ∨ b.index = a.index ∧ inner ≠ []) := by
  induction k with
  | zero =>
    have hstart : (m.run c below 0).activations = [] ++ a :: callers := by
      subst hm
      rfl
    have hafter := hheight 1 (Nat.le_refl 1)
    exact step_above (hstraight 0) hstart hafter
  | succ k ih =>
    obtain ⟨inner, b, hactivations, hprogram, hindex⟩ :=
      ih fun j hj => hheight j (Nat.le_succ_of_le hj)
    have hafter := hheight (k + 1 + 1) (Nat.le_refl _)
    rw [run_step] at hafter ⊢
    obtain ⟨inner', b', hactivations', hprogram', hindex'⟩ :=
      step_above (hstraight (k + 1)) hactivations hafter
    refine ⟨inner', b', hactivations', hprogram'.trans hprogram, ?_⟩
    rcases hindex' with hlt | ⟨heq, hinner⟩
    · left
      omega
    · rcases hindex with hlt | ⟨heq', -⟩
      · left
        omega
      · exact .inr ⟨heq.trans heq', hinner⟩

end Machine

open Machine in
/-- Where neither the program nor any that can be called has a `While` or a `Repeat`, the run ends,
whatever calls what. And while a running program is not left, which is while the chain of running
programs stays longer than the chain of its callers, the statements that it comes to stand further
and further down. -/
theorem execute_loopFree (c : Context) (below : Nat) (p : Program) (hc : c.LoopFree)
    (hp : p.LoopFree) :
    (∀ w, ∃ fuel out, execute c fuel below p w = some out) ∧
    ∀ s₀ n n' a a' callers callers' s s', n < n' →
      (enter below p [] s₀).run c below n = running a callers s →
      (enter below p [] s₀).run c below n' = running a' callers' s' →
      callers'.length = callers.length →
      (∀ j, n ≤ j → j ≤ n' →
        callers.length < ((enter below p [] s₀).run c below j).activations.length) →
      a'.program = a.program ∧ callers' = callers ∧ a.index < a'.index := by
  constructor
  · intro w
    obtain ⟨o, ho⟩ := exists_ends hc hp below w.scene
    obtain ⟨fuel, out, hout, -⟩ := ends_iff_execute.mp ho
    exact ⟨fuel, out, hout⟩
  · intro s₀ n n' a a' callers callers' s s' hn hfirst hsecond hlength hheight
    have hinvariant := straight_invariant hc
    have hholds (j : Nat) : ∀ b ∈ ((enter below p [] s₀).run c below j).activations, b.Straight :=
      (hinvariant.holds_run
        (hinvariant.holds_enter (Activation.straight_start hp) (by simp) trivial) j).activations
    obtain ⟨k, rfl⟩ := Nat.exists_eq_add_of_lt hn
    have hrun (j : Nat) : (enter below p [] s₀).run c below (n + j) =
        ((enter below p [] s₀).run c below n).run c below j := run_add n j _
    obtain ⟨inner, b, hactivations, hprogram, hindex⟩ := run_above hfirst k
      (fun j => hrun j ▸ hholds (n + j))
      fun j hj => hrun j ▸ hheight (n + j) (Nat.le_add_right n j) (by omega)
    rw [← hrun (k + 1), ← Nat.add_assoc, hsecond] at hactivations
    have hcount := congrArg List.length hactivations
    simp only [activations, List.length_cons, List.length_append] at hcount
    have hnone : inner = [] := List.eq_nil_of_length_eq_zero (by omega)
    subst hnone
    cases hactivations
    rcases hindex with hlt | ⟨-, hinner⟩
    · exact ⟨hprogram, rfl, hlt⟩
    · exact absurd rfl hinner

open Machine in
/-- `MAIN` calls a program that returns and then one that calls itself. -/
theorem execute_loopFree_main :
    let st (i : Instruction) : Statement := ⟨i, .start⟩
    let back : Program := ⟨"BACK", "", [st .ret]⟩
    let again : Program := ⟨"AGAIN", "", [st (.call "AGAIN"), st (.call "BACK")]⟩
    let main : Program := ⟨"MAIN", "", [st (.call "BACK"), st (.call "AGAIN")]⟩
    let c : Context := ⟨Builtin.registry, (∅ : Programs).insertMany
      [("BACK", back), ("AGAIN", again)]⟩
    let s : Scene := ⟨.fresh, .new (.stream "")⟩
    let m := enter 0 main [] s
    c.LoopFree ∧ main.LoopFree ∧ (∀ w, ∃ fuel out, execute c fuel 0 main w = some out) ∧
      m.run c 0 0 = running ⟨main, 0, []⟩ [] s ∧ m.run c 0 1 = running (.start back) [⟨main, 0, []⟩] s ∧
      m.run c 0 2 = running ⟨main, 1, []⟩ [] s ∧
      (⟨main, 0, []⟩ : Activation).index < (⟨main, 1, []⟩ : Activation).index := by
  intro st back again main c s m
  have hmain : main.LoopFree := by simp [Program.LoopFree, main, st, Instruction.isLoop]
  have hc : c.LoopFree := by
    intro name q hq
    have hprograms : c.programs.toList = [("AGAIN", again), ("BACK", back)] := rfl
    have hmem : (name, q) ∈ c.programs.toList := Std.TreeMap.mem_toList_iff_getElem?_eq_some.mpr hq
    rw [hprograms] at hmem
    have hcases : q = again ∨ q = back := by
      simp only [List.mem_cons, Prod.mk.injEq, List.not_mem_nil, or_false] at hmem
      exact hmem.imp (·.2) (·.2)
    rcases hcases with rfl | rfl
    · simp [Program.LoopFree, again, st, Instruction.isLoop]
    · simp [Program.LoopFree, back, st, Instruction.isLoop]
  have hheight : ∀ j, 0 ≤ j → j ≤ 2 → 0 < (m.run c 0 j).activations.length
    | 0, _, _ | 1, _, _ | 2, _, _ => Nat.zero_lt_succ _
  obtain ⟨hends, hindex⟩ := execute_loopFree c 0 main hc hmain
  obtain ⟨-, -, hlt⟩ :=
    hindex s 0 2 ⟨main, 0, []⟩ ⟨main, 1, []⟩ [] [] s s (by omega) rfl rfl rfl hheight
  exact ⟨hc, hmain, hends, rfl, rfl, rfl, hlt⟩

end Handheld
