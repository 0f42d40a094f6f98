import Handheld.Proofs.Reachable
import Handheld.Session

/-!
# Sessions go on

Whatever was done with a calculator before, the faults of its runs are faults of the language, so a
session tells them to the user and goes on. With a device that prints everything and only ever runs
out of input, a session is over when the user leaves or the input ends, and each line that is run is
answered by one printed line, after all that its program printed.
-/

namespace Handheld

/-- The device prints everything, and input fails by its end only. -/
structure Device.Reliable (d : Device) : Prop where
  prints : ∀ past line, d.refusal past line = none
  closes : ∀ past f, d.answer past = .error f → f = .closed

/-- A fault of the language is neither unknown nor a broken invariant. -/
theorem Fault.OfLanguage.told {f : Fault} (h : f.OfLanguage) :
    ¬ (f.reason = .unknown ∨ f.reason = .assertion) := by
  rintro (hreason | hreason)
  · rw [Fault.OfLanguage, hreason] at h
    simp [Reason.language] at h
  · rw [Fault.OfLanguage, hreason] at h
    simp [Reason.language] at h

namespace Session

/-- What the user is told after a line was run. -/
def told : Except Fault (Option Value) → String
  | .ok v => Value.textOf v
  | .error f => errorMark ++ f.message

/-- The line is run: it is neither blank nor the word that ends a session. -/
def isRun (line : String) : Bool :=
  let word := String.ofList (Text.trim line.toList)
  !Text.equalLetters word exitWord && !word.isEmpty

/-- The calculator is sound and has a reliable device. -/
structure Ready (c : Calculator) : Prop where
  sound : c.Sound
  reliable : c.world.console.device.Reliable

/-- The calculator with one more line printed. -/
def printing (c : Calculator) (line : String) : Calculator :=
  { c with world.console :=
      { c.world.console with
        past := .offer line :: c.world.console.past
        printed := c.world.console.printed.push line } }

variable {c c' : Calculator}

private theorem Ready.record (h : Ready c) (e : Event) : Ready (c.record e) :=
  ⟨⟨h.sound.memory, h.sound.programs⟩, h.reliable⟩

/-- A use of the device leaves the calculator ready. -/
theorem Ready.console (h : Ready c) {k : Console} (hk : k.device = c.world.console.device) :
    Ready { c with world.console := k } :=
  ⟨⟨h.sound.memory, h.sound.programs⟩, hk ▸ h.reliable⟩

private theorem Ready.printing (h : Ready c) (line : String) :
    Ready (printing c line) := h.console rfl

/-- Every run leaves the calculator ready. -/
theorem Ready.leaves (h : Ready c) {r : Except Fault (Option Value)} (hleaves : c.Leaves r c') :
    Ready c' :=
  ⟨hleaves.sound, hleaves.grows.device ▸ h.reliable⟩

/-- On a reliable device the answer is printed, and the session goes on. -/
private theorem answer_eq (h : c.world.console.device.Reliable) (line circumstances : String) :
    answer c line circumstances = (.proceed, printing c line) := by
  unfold answer Console.print
  rw [h.prints]
  rfl

/-- After a run the session tells the user one line and goes on. -/
theorem reply_eq (h : Ready c) {r : Except Fault (Option Value)} (line : String)
    (hr : ∀ f, r = .error f → f.OfLanguage) :
    ∃ c', reply line r c = (.proceed, printing c' (told r)) ∧ c'.world.scene = c.world.scene ∧
      Ready c' := by
  cases r with
  | ok v => exact ⟨c, answer_eq h.reliable _ _, rfl, h⟩
  | error f =>
    have htold := (hr f rfl).told
    refine ⟨c.record (.refused f line), ?_, rfl, h.record _⟩
    rw [reply, if_neg htold]
    exact answer_eq (h.record _).reliable _ _

/-- A line that is run leads to a reply. -/
theorem handle_of_isRun {line : String} (hline : isRun line = true) (fuel : Nat) (c : Calculator) :
    handle fuel c line = (c.interpret fuel line).map fun (r, c) => reply line r c := by
  unfold isRun at hline
  unfold handle
  simp only [Bool.and_eq_true, Bool.not_eq_true'] at hline
  simp only [hline.1, hline.2, Bool.false_eq_true, if_false]

/-- Any other line ends the session or is passed over. -/
theorem handle_of_not_isRun {line : String} (hline : ¬ isRun line = true) (fuel : Nat)
    (c : Calculator) :
    handle fuel c line = some (.over none, c) ∨ handle fuel c line = some (.proceed, c) := by
  unfold isRun at hline
  unfold handle
  simp only at hline ⊢
  split
  · exact .inl rfl
  · next hword =>
    split
    · exact .inr rfl
    · next hblank => simp [hword, hblank] at hline

/-- A line that is run, and whose run ends, is answered by one line after what its run printed. -/
theorem Ready.handle_run (h : Ready c) {line : String} (hline : isRun line = true) {fuel : Nat}
    {r : Except Fault (Option Value)} (hrun : c.interpret fuel line = some (r, c')) :
    ∃ c₂, Session.handle fuel c line = some (.proceed, c₂) ∧ Ready c₂ ∧
      c₂.world.console.printed = c'.world.console.printed.push (told r) ∧
      c₂.world.memory = c'.world.memory := by
  have hleaves := h.sound.interpret hrun
  obtain ⟨c₁, hreply, hscene, hready⟩ := reply_eq (h.leaves hleaves) line hleaves.fault
  refine ⟨Session.printing c₁ (told r), ?_, hready.printing _, ?_, congrArg Scene.memory hscene⟩
  · rw [handle_of_isRun hline, hrun]
    exact congrArg some hreply
  · exact congrArg (fun s : Scene => s.console.printed.push (told r)) hscene

/-- A line ends the session without a fault, or the session goes on. -/
theorem Ready.handle (h : Ready c) {line : String} {fuel : Nat} {next : Next}
    (hhandle : Session.handle fuel c line = some (next, c')) :
    next = .over none ∨ next = .proceed ∧ Ready c' := by
  by_cases hline : isRun line = true
  · cases hrun : c.interpret fuel line with
    | none =>
      rw [handle_of_isRun hline, hrun] at hhandle
      cases hhandle
    | some out =>
      obtain ⟨c₂, hc₂, hready, -⟩ := h.handle_run hline hrun
      rw [hc₂] at hhandle
      cases hhandle
      exact .inr ⟨rfl, hready⟩
  · rcases handle_of_not_isRun hline fuel c with hidle | hidle
    · rw [hidle] at hhandle
      cases hhandle
      exact .inl rfl
    · rw [hidle] at hhandle
      cases hhandle
      exact .inr ⟨rfl, h⟩

/-- Reading a line leaves the calculator ready. -/
theorem Ready.read (h : Ready c) {answer : Except ReadFault String} {k : Console}
    (hread : c.world.console.read = (answer, k)) : Ready { c with world.console := k } := by
  refine h.console ?_
  cases hread
  rfl

/-- A session that is over has no fault. -/
theorem Ready.loop (h : Ready c) {fuel : Nat} {out : Option Fault}
    (hloop : Session.loop fuel c = some (out, c')) : out = none := by
  induction fuel generalizing c with
  | zero => cases hloop
  | succ fuel ih =>
    unfold Session.loop at hloop
    split at hloop
    · cases hloop
      rfl
    · next cause k hread =>
      have hanswer : c.world.console.device.answer c.world.console.past = .error (.failed cause) :=
        congrArg Prod.fst hread
      cases h.reliable.closes _ _ hanswer
    · next line k hread =>
      have hready := h.read hread
      split at hloop
      · cases hloop
      · next f c₂ hhandle =>
        cases hloop
        rcases hready.handle hhandle with hover | ⟨hover, -⟩
        · cases hover
          rfl
        · cases hover
      · next c₂ hhandle =>
        rcases hready.handle hhandle with hover | ⟨-, hready₂⟩
        · cases hover
        · exact ih hready₂ hloop

end Session

end Handheld
