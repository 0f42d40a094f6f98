import Handheld.Proofs.Machine
import Handheld.Proofs.Steps
import Mathlib.Data.List.Perm.Subperm

/-!
# Open blocks

A program is inside of blocks that its own statements opened, nested as they stand in the program,
however the program jumps and whether its block words match or not. So there are never more open
blocks than block words above the current statement, and the `End` of a `Repeat` finds its condition
in the statement that opened the block.
-/

namespace Handheld

namespace Place

/-- The open blocks fit the statements. -/
structure Framed (p : Place) : Prop where
  /-- Each block was opened by the statement at its header. -/
  opened : ∀ f ∈ p.frames, f.block.OpenedAt p.statements f.header
  /-- A block inside of another was opened further down. -/
  nested : p.frames.Pairwise fun inner outer => outer.header < inner.header
  /-- All of them were opened above the current statement. -/
  above : ∀ f ∈ p.frames, f.header < p.index

namespace Framed

variable {ss : List Statement} {i j : Nat} {f : Frame} {frames : List Frame}

/-- At the start no block is open. -/
theorem start (ss : List Statement) : Framed ⟨ss, 0, []⟩ :=
  ⟨by simp, List.Pairwise.nil, by simp⟩

/-- The same blocks fit further down. -/
theorem onward (h : Framed ⟨ss, i, frames⟩) (hij : i ≤ j) : Framed ⟨ss, j, frames⟩ :=
  ⟨h.opened, h.nested, fun f hf => Nat.lt_of_lt_of_le (h.above f hf) hij⟩

/-- The blocks around a block fit at its header. -/
theorem outer (h : Framed ⟨ss, i, f :: frames⟩) : Framed ⟨ss, f.header, frames⟩ := by
  obtain ⟨hheader, hnested⟩ := List.pairwise_cons.mp h.nested
  exact ⟨fun g hg => h.opened g (List.mem_cons_of_mem f hg), hnested, hheader⟩

/-- A block that the current statement opens fits below it. -/
theorem push (h : Framed ⟨ss, i, frames⟩) {block : Block} (hblock : block.OpenedAt ss i)
    (hij : i < j) : Framed ⟨ss, j, ⟨block, i⟩ :: frames⟩ where
  opened := List.forall_mem_cons.mpr ⟨hblock, h.opened⟩
  nested := List.pairwise_cons.mpr ⟨h.above, h.nested⟩
  above := List.forall_mem_cons.mpr ⟨hij, fun g hg => Nat.lt_trans (h.above g hg) hij⟩

end Framed

/-- Wherever a statement leads, the open blocks fit. -/
theorem Framed.next {p : Place} (h : p.Framed) {j : Nat} {frames : List Frame}
    (hleads : p.Leads (.next j frames)) : Framed ⟨p.statements, j, frames⟩ := by
  cases hleads with
  | onward hj => exact h.onward (Nat.le_of_lt hj)
  | opened hblock hj => exact h.push hblock hj
  | @closed f _ _ hframes hj =>
    have hp : Framed ⟨p.statements, p.index, f :: frames⟩ := hframes ▸ h
    have hheader := hp.above f (List.mem_cons_self ..)
    exact hp.outer.onward (Nat.le_of_lt (Nat.lt_trans hheader hj))
  | @retested f _ hframes hblock =>
    have hp : Framed ⟨p.statements, p.index, f :: frames⟩ := hframes ▸ h
    exact hp.outer
  | @repeated f outer test hframes hblock =>
    have hp : Framed ⟨p.statements, p.index, f :: outer⟩ := hframes ▸ h
    exact hp.outer.push (hp.opened f (List.mem_cons_self ..)) (Nat.lt_succ_self f.header)

end Place

namespace Statement

/-- The statement with the index `i` can open a block. -/
def opensBlock (ss : List Statement) (i : Nat) : Bool :=
  (ss[i]?).any fun st =>
    match st.instruction with
    | .whileLoop _ | .repeatLoop _ => true
    | .cond _ => (ss[i + 1]?).any (·.isThen)
    | _ => false

/-- The number of statements with an index below `i` that can open a block. -/
def blocksAbove (ss : List Statement) (i : Nat) : Nat := (List.range i).countP (opensBlock ss)

end Statement

/-- Where a block was opened stands a statement that opens one. -/
private theorem Block.OpenedAt.opensBlock {ss : List Statement} {i : Nat} {block : Block}
    (h : block.OpenedAt ss i) : Statement.opensBlock ss i = true := by
  unfold Statement.opensBlock
  cases block with
  | cond inElse =>
    obtain ⟨⟨test, hcond⟩, hthen⟩ := h
    obtain ⟨st, hst, hinstruction⟩ := Option.map_eq_some_iff.mp hcond
    simp only [hst, Option.any_some, hinstruction]
    exact (Place.beforeThen_iff ⟨ss, i, []⟩).mpr hthen
  | whileLoop =>
    obtain ⟨test, hwhile⟩ := h
    obtain ⟨st, hst, hinstruction⟩ := Option.map_eq_some_iff.mp hwhile
    simp only [hst, Option.any_some, hinstruction]
  | repeatLoop test =>
    obtain ⟨st, hst, hinstruction⟩ := Option.map_eq_some_iff.mp h
    simp only [hst, Option.any_some, hinstruction]

/-- Different open blocks have different headers, so there are no more of them than block words. -/
theorem Place.Framed.length_le {p : Place} (h : p.Framed) :
    p.frames.length ≤ Statement.blocksAbove p.statements p.index := by
  have hnodup : (p.frames.map (·.header)).Nodup := by
    rw [List.Nodup, List.pairwise_map]
    exact h.nested.imp fun hlt => Nat.ne_of_gt hlt
  have hsubset : p.frames.map (·.header) ⊆
      (List.range p.index).filter (Statement.opensBlock p.statements) := by
    intro i hi
    obtain ⟨f, hf, rfl⟩ := List.mem_map.mp hi
    exact List.mem_filter.mpr ⟨List.mem_range.mpr (h.above f hf), (h.opened f hf).opensBlock⟩
  have hlength := (hnodup.subperm hsubset).length_le
  rwa [List.length_map, ← List.countP_eq_length_filter] at hlength

/-- One statement keeps the open blocks of every running program fitting. -/
theorem framed_invariant (c : Context) :
    Machine.Invariant c (·.place.Framed) (fun _ => True) fun _ => True where
  start name p _ := Place.Framed.start p.statements
  next a ha := ha.onward (Nat.le_succ a.index)
  step a st s ha _ hst := by
    cases hstep : (a.place.step c.commands a.program.name st).onScene s with
    | error f s' => exact ⟨trivial, trivial⟩
    | ok progress s' =>
      have hleads : a.place.Leads progress := Place.leads_of_step hst hstep
      cases progress with
      | done signal => trivial
      | next j frames => exact ⟨ha.next hleads, trivial⟩
  undefined _ _ := trivial
  depth := trivial

/-- In every state of every run of every program, be its block words matched or not, the open blocks
of each running program fit it: inner ones were opened further down than outer ones, all of them
above the current statement, each by a statement of its own kind. So there are at most as many as
there are block words above, and looking up the header of a `Repeat` finds its condition. -/
theorem open_blocks_fit (c : Context) (below : Nat) (name source : String) (ss : List Statement)
    (s : Scene) (n : Nat) :
    ∀ a ∈ ((Machine.enter below ⟨name, source, ss⟩ [] s).run c below n).activations,
      a.place.Framed ∧
      a.frames.length ≤ Statement.blocksAbove a.program.statements a.index ∧
      ∀ f ∈ a.frames, ∀ test, f.block = .repeatLoop test →
        ∃ st, a.program.statements[f.header]? = some st ∧ st.instruction = .repeatLoop test := by
  have hinvariant := framed_invariant c
  have hprogram : (Activation.start ⟨name, source, ss⟩).place.Framed := Place.Framed.start ss
  have hstart : (Machine.enter below ⟨name, source, ss⟩ [] s).Holds (·.place.Framed)
      (fun _ => True) fun _ => True :=
    hinvariant.holds_enter hprogram (by simp) trivial
  intro a ha
  have hframed : a.place.Framed := (hinvariant.holds_run hstart n).activations a ha
  refine ⟨hframed, hframed.length_le, fun f hf test hblock => ?_⟩
  have hopened := hframed.opened f hf
  rw [hblock] at hopened
  exact Option.map_eq_some_iff.mp hopened

/-- A program that opens two loops, never closes them and calls itself, after five statements. -/
theorem open_blocks_fit_recursion :
    let loop (name : Char) : Statement := ⟨.repeatLoop (.var name .start), .start⟩
    let ss : List Statement := [loop 'A', loop 'B', ⟨.call "P", .start⟩]
    let c : Context := ⟨∅, (∅ : Programs).insert "P" ⟨"P", "", ss⟩⟩
    let s : Scene := ⟨.fresh, .new (.stream "")⟩
    let a : Activation := ⟨⟨"P", "", ss⟩, 2,
      [⟨.repeatLoop (.var 'B' .start), 1⟩, ⟨.repeatLoop (.var 'A' .start), 0⟩]⟩
    ((Machine.enter 0 ⟨"P", "", ss⟩ [] s).run c 0 5).activations = [a, a] ∧ a.place.Framed ∧
      a.frames.length ≤ Statement.blocksAbove ss 2 ∧
      ∀ f ∈ a.frames, ∀ test, f.block = .repeatLoop test →
        ∃ st, ss[f.header]? = some st ∧ st.instruction = .repeatLoop test := by
  intro loop ss c s a
  have hrun : ((Machine.enter 0 ⟨"P", "", ss⟩ [] s).run c 0 5).activations = [a, a] := rfl
  exact ⟨hrun, open_blocks_fit c 0 "P" "" ss s 5 a (by simp [hrun])⟩

end Handheld
