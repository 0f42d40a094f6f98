import Handheld.Calculator
import Handheld.Proofs.Commands
import Handheld.Proofs.OpenBlocks
import Handheld.Proofs.Vocabulary

/-!
# What a calculator can hold

A calculator that started with a fresh memory always has a last result; its lists are short and have
valid names, and only numeric variables hold numbers. Nothing that a program or a user does can
change that, because every value that an expression can have is present and short. The checks that
the memory makes when it stores a list can therefore fail for the kind of the value only.
-/

namespace Handheld

/-- The memory holds what it may hold. -/
structure Memory.Sound (m : Memory) : Prop where
  /-- There is a last result, and it is short. -/
  ans : Value.Held m.ans
  /-- Only the letters hold numbers. -/
  numbers : ∀ (c : Char) (z : Number), m.numbers[c]? = some z → Name.isLetter c = true
  /-- Lists have valid names and are short. -/
  lists : ∀ (n : String) (zs : List Number), m.lists[n]? = some zs →
    Name.checkList n = .ok () ∧ zs.length ≤ Value.maxListLength
  /-- Numbers can be stored. -/
  unlocked : m.locked = none

namespace Memory

/-- A fresh memory is sound. -/
theorem sound_fresh : Memory.fresh.Sound where
  ans := ⟨.number .zero, rfl, trivial⟩
  numbers c z h := by simp [fresh] at h
  lists n zs h := by simp [fresh] at h
  unlocked := rfl

variable {m : Memory}

/-- A memory stays sound when the last result is one that it may hold. -/
private theorem Sound.setAns (h : m.Sound) {v : Option Value} (hv : Value.Held v) :
    (m.setAns v).Sound :=
  ⟨hv, h.numbers, h.lists, h.unlocked⟩

/-- A memory stays sound when a number is stored. -/
private theorem Sound.gives_setNumber (h : m.Sound) (c : Char) (v : Option Value) :
    Gives (m.setNumber c v) Memory.Sound := by
  unfold setNumber
  split
  · next cause hlocked =>
    rw [h.unlocked] at hlocked
    cases hlocked
  · split
    · next hletter =>
      split
      · next z =>
        refine ⟨h.ans, fun c' z' hc' => ?_, h.lists, h.unlocked⟩
        rw [Std.TreeMap.getElem?_insert] at hc'
        split at hc'
        · next heq => rwa [← Std.LawfulEqCmp.eq_of_compare heq]
        · exact h.numbers c' z' hc'
      · exact gives_error (by simp [Fault.Plain, Fault.reason, Reason.language])
    · exact gives_error (by simp [Fault.Plain, Fault.reason, Reason.language])

/-- A memory stays sound when a list is stored. -/
private theorem Sound.gives_setList (h : m.Sound) (n : String) (v : Option Value) :
    Gives (m.setList n v) Memory.Sound := by
  unfold setList
  split
  · exact gives_error (by simp [Fault.Plain, Fault.reason, Reason.language])
  · next hname =>
    split
    · next zs =>
      split
      · exact gives_error (by simp [Fault.Plain, Fault.reason, Reason.language])
      · next hlength =>
        refine ⟨h.ans, h.numbers, fun n' zs' hn' => ?_, h.unlocked⟩
        rw [Std.TreeMap.getElem?_insert] at hn'
        split at hn'
        · next heq =>
          cases hn'
          rw [← Std.LawfulEqCmp.eq_of_compare heq]
          exact ⟨hname, Nat.not_lt.mp hlength⟩
        · exact h.lists n' zs' hn'
    · exact gives_error (by simp [Fault.Plain, Fault.reason, Reason.language])

/-- A store keeps the memory sound or has a plain fault. -/
theorem Sound.gives_store (h : m.Sound) (v : Option Value) (t : Target) :
    Gives (m.store v t) Memory.Sound := by
  cases t with
  | var c => exact h.gives_setNumber c v
  | list n => exact h.gives_setList n v

/-- A short list is stored under a valid name; only what is no list is refused. -/
theorem setList_error {n : String} {v : Option Value} {f : Fault} (hn : Name.checkList n = .ok ())
    (hv : Value.Held v) (h : m.setList n v = .error f) : f = .storeList v n := by
  obtain ⟨x, rfl, hx⟩ := hv
  unfold setList at h
  rw [hn] at h
  cases x with
  | list zs =>
    simp only at h
    split at h
    · next hlength => exact absurd hx (Nat.not_le.mpr hlength)
    · cases h
  | number z =>
    cases h
    rfl
  | string s =>
    cases h
    rfl

end Memory

/-- The memory is sound, and the console is `k` at a later time. -/
def Scene.SoundSince (k : Console) (s : Scene) : Prop := s.memory.Sound ∧ k.Grows s.console

private theorem lasting_soundSince (k : Console) : World.Lasting fun w => w.scene.SoundSince k :=
  ⟨fun _ _ h => h, fun _ _ hgrows h => ⟨h.1, h.2.trans hgrows⟩⟩

/-- The built-in commands keep the memory sound. -/
theorem Builtin.rules (k : Console) :
    Place.Rules Builtin.registry Builtin.Known (fun w => w.scene.SoundSince k) Value.Held
      Fault.Plain where
  lasting := lasting_soundSince k
  number z := ⟨_, rfl, trivial⟩
  string s := ⟨_, rfl, trivial⟩
  list zs h := ⟨_, rfl, h⟩
  ans w h := h.1.ans
  stored w n zs h hlist := by
    unfold Memory.list at hlist
    split at hlist
    · next zs' hn =>
      cases hlist
      exact ⟨_, rfl, (h.1.lists n _ hn).2⟩
    · cases hlist
  unary := Builtin.known_unary
  binary := Builtin.known_binary
  run name vs hname hvs := Builtin.keeps_run (lasting_soundSince k) hname hvs
  language f h := h
  display := Builtin.known_display
  text text e h := (Program.calls_of_parseExpression h).mono fun _ => Builtin.known_function

/-- Storing a value keeps the memory sound. -/
private theorem keeps_store (k : Console) (v : Option Value) (t : Target) :
    (Action.store v t).Keeps (fun w => w.scene.SoundSince k) (fun _ => True) Fault.Plain := by
  intro w hw
  have hstore := hw.1.gives_store v t
  unfold Action.store
  cases hrun : w.memory.store v t with
  | error f =>
    have hmemory : w.scene.memory.store v t = .error f := hrun
    rw [hmemory] at hstore
    exact ⟨hw, hstore⟩
  | ok m =>
    have hmemory : w.scene.memory.store v t = .ok m := hrun
    rw [hmemory] at hstore
    exact ⟨⟨hstore, hw.2⟩, trivial⟩

/-- Setting the last result keeps the memory sound. -/
private theorem keeps_setAns (k : Console) {v : Option Value} (hv : Value.Held v) :
    (Action.setAns v).Keeps (fun w => w.scene.SoundSince k) (fun _ => True) Fault.Plain :=
  fun _ hw => ⟨⟨hw.1.setAns hv, hw.2⟩, trivial⟩

/-- A statement of a proper program keeps the memory sound. The condition of an open `Repeat` is
proper, since it stands in the program. -/
private theorem Activation.keeps_step (k : Console) {a : Activation} {st : Statement}
    (hproper : a.program.Proper) (hframed : a.place.Framed) (hst : a.statement? = some st) :
    (a.place.step Builtin.registry a.program.name st).Keeps (fun w => w.scene.SoundSince k)
      a.place.Leads Fault.Plain := by
  have hcalls {st : Statement} (hmem : st ∈ a.program.statements) :
      st.instruction.Calls Builtin.Known :=
    (hproper st hmem).calls.mono fun _ => Builtin.known_function
  have hmem : st ∈ a.program.statements := List.mem_of_getElem? hst
  refine (Builtin.rules k).keeps_step _ hst (hcalls hmem) (fun f hf test hblock => ?_)
    (fun t _ v _ => keeps_store k v t) fun _ _ _ v hv => keeps_setAns k hv
  have hopened := hframed.opened f hf
  rw [hblock] at hopened
  obtain ⟨header, hheader, hinstruction⟩ := Option.map_eq_some_iff.mp hopened
  have hrepeat := hcalls (List.mem_of_getElem? hheader)
  rwa [hinstruction] at hrepeat

/-- One statement keeps the memory sound and fails for reasons of the language only. -/
theorem sound_invariant {programs : Programs} (k : Console)
    (hprograms : ∀ (name : String) (p : Program), programs[name]? = some p → p.Proper) :
    Machine.Invariant ⟨Builtin.registry, programs⟩ (fun a => a.program.Proper ∧ a.place.Framed)
      (·.SoundSince k) Fault.OfLanguage where
  start name p hp := ⟨hprograms name p hp, Place.Framed.start p.statements⟩
  next a ha := ⟨ha.1, ha.2.onward (Nat.le_succ a.index)⟩
  step a st s ha hs hst := by
    have hstep := (Activation.keeps_step k ha.1 ha.2 hst).onScene hs
    cases hrun : (a.place.step Builtin.registry a.program.name st).onScene s with
    | error f s' =>
      rw [hrun] at hstep
      exact ⟨hstep.1, hstep.2.1⟩
    | ok progress s' =>
      rw [hrun] at hstep
      cases progress with
      | done signal => exact hstep.1
      | next i frames => exact ⟨⟨ha.1, ha.2.next hstep.2⟩, hstep.1⟩
  undefined name pos := by simp [Fault.OfLanguage, Fault.reason, Reason.language]
  depth := by simp [Fault.OfLanguage, Fault.reason, Reason.language]

/-- Whatever an expression calls, commands that exist give short values. -/
theorem Builtin.valueRules (k : Console) :
    Expr.Rules Builtin.registry (fun _ => True) (fun w => w.scene.SoundSince k) Value.Held
      fun _ => True where
  number := (Builtin.rules k).number
  string := (Builtin.rules k).string
  list := (Builtin.rules k).list
  ans := (Builtin.rules k).ans
  stored := (Builtin.rules k).stored
  unary _ := trivial
  binary _ := trivial
  run name vs _ hvs := by
    by_cases hname : Builtin.Known name
    · have hkeeps := Builtin.keeps_run (lasting_soundSince k) hname hvs
      exact hkeeps.mono (fun _ h => h) fun _ _ => trivial
    · unfold Registry.run
      rw [Builtin.getElem?_of_not_known hname]
      exact Action.keeps_throw trivial
  language _ _ := trivial

/-- In a sound memory every expression that has a value has a short one. -/
theorem held_of_eval {e : Expr} {s s' : Scene} {v : Option Value} (hs : s.memory.Sound)
    (h : (e.eval Builtin.registry).onScene s = .ok v s') : Value.Held v := by
  have hkeeps := (Builtin.valueRules s.console).keeps_eval e e.calls_true
  have hscene := hkeeps.onScene (s := s) ⟨hs, .refl s.console⟩
  rw [h] at hscene
  exact hscene.2

/-- Executing the instruction in the scene `s` comes to the point where it asks the memory `m` to
store the value `v` in `t`. -/
inductive Instruction.Stores (r : Registry) (s : Scene) :
    Instruction → Memory → Option Value → Target → Prop
  | expression {e : Expr} {t : Target} {v : Option Value} {s' : Scene}
      (heval : (e.eval r).onScene s = .ok v s') :
      Stores r s (.expression e (some t)) s'.memory v t
  | input {text : String} {t : Target} {v : Option Value} {s' : Scene}
      (hask : (ask r text).onScene s = .ok v s') : Stores r s (.input text t) s'.memory v t
  | prompt {before after : List Target} {t : Target} {v : Option Value} {s' s'' : Scene}
      (hbefore : (promptAll r before).onScene s = .ok () s')
      (hask : (ask r (t.text ++ "=?")).onScene s' = .ok v s'') :
      Stores r s (.prompt (before ++ t :: after)) s''.memory v t

/-- A proper instruction stores short values in variables only. -/
theorem Instruction.Stores.held {i : Instruction} {s : Scene} {m : Memory} {v : Option Value}
    {t : Target} (h : i.Stores Builtin.registry s m v t) (hi : i.Proper) (hs : s.memory.Sound) :
    Value.Held v ∧ t.Valid := by
  have hrules := Builtin.rules s.console
  have hsound : s.SoundSince s.console := ⟨hs, .refl s.console⟩
  cases h with
  | expression heval => exact ⟨held_of_eval hs heval, hi.targets t (by simp [Instruction.targets])⟩
  | @input text _ _ s' hask =>
    have hscene := (hrules.keeps_ask text).onScene hsound
    rw [hask] at hscene
    exact ⟨hscene.2, hi.targets t (by simp [Instruction.targets])⟩
  | @prompt before after _ _ s' s'' hbefore hask =>
    have hkeeps : (promptAll Builtin.registry before).Keeps (fun w => w.scene.SoundSince s.console)
        (fun _ => True) Fault.Plain :=
      hrules.keeps_promptAll fun t _ v _ => keeps_store s.console v t
    have hprompt := hkeeps.onScene hsound
    rw [hbefore] at hprompt
    have hscene := (hrules.keeps_ask (t.text ++ "=?")).onScene hprompt.1
    rw [hask] at hscene
    exact ⟨hscene.2, hi.targets t (by simp [Instruction.targets])⟩

namespace Calculator

/-- The calculators that can arise from a new one. -/
inductive Reachable : Calculator → Prop
  /-- A new calculator with any device. -/
  | new (d : Device) (threshold : Level) (debug : Debug) :
      Reachable { Calculator.new d threshold with debug := debug }
  /-- A program was loaded, or could not be. -/
  | load {c : Calculator} (h : Reachable c) (name source : String) :
      Reachable (c.load name source).2
  /-- A line was run, in vain or not. -/
  | interpret {c c' : Calculator} {fuel : Nat} {line : String}
      {r : Except Fault (Option Value)} (h : Reachable c)
      (hrun : c.interpret fuel line = some (r, c')) : Reachable c'
  /-- A loaded program was run, in vain or not. -/
  | executeProgram {c c' : Calculator} {fuel : Nat} {name : String}
      {r : Except Fault (Option Value)} (h : Reachable c)
      (hrun : c.executeProgram fuel name = some (r, c')) : Reachable c'
  /-- Others used the console and the log. -/
  | elsewhere {c : Calculator} (h : Reachable c) (k : Console) (l : Log) :
      Reachable { c with world := ⟨c.world.memory, k, l⟩ }

/-- A program that the calculator can run: that of a line, or a loaded one. -/
def Starts (c : Calculator) (p : Program) : Prop :=
  (∃ line, Program.parse "" line = .ok p) ∨ ∃ name : String, c.programs[name]? = some p

/-- The memory is sound, and so are the programs. -/
structure Sound (c : Calculator) : Prop where
  memory : c.world.memory.Sound
  programs : ∀ (name : String) (p : Program), c.programs[name]? = some p → p.Proper

variable {c c' : Calculator}

/-- The programs of a sound calculator are proper. -/
private theorem Sound.proper (h : c.Sound) {p : Program} (hp : c.Starts p) : p.Proper := by
  rcases hp with ⟨line, hline⟩ | ⟨name, hname⟩
  · exact Program.proper_of_parse hline
  · exact h.programs name p hname

/-- Records change nothing but the log. -/
theorem exists_recordAll (c : Calculator) (es : List Event) :
    ∃ w, c.recordAll es = { c with world := w } ∧ w.scene = c.world.scene := by
  unfold recordAll
  induction es generalizing c with
  | nil => exact ⟨c.world, rfl, rfl⟩
  | cons e es ih => exact ih (c.record e)

/-- Recording leaves the scene and the programs as they are. -/
theorem recordAll_eq (c : Calculator) (es : List Event) :
    (c.recordAll es).world.scene = c.world.scene ∧ (c.recordAll es).programs = c.programs := by
  obtain ⟨w, hw, hscene⟩ := c.exists_recordAll es
  rw [hw]
  exact ⟨hscene, rfl⟩

/-- After a run the calculator has the world of the run, with another log. -/
theorem exists_settle (c : Calculator) (w : World) :
    ∃ w', c.settle w = { c with world := w' } ∧ w'.scene = w.scene := by
  unfold settle
  simp only
  split
  · exact ⟨_, rfl, rfl⟩
  · exact ⟨w, rfl, rfl⟩

/-- After a run the calculator has the scene of the run and the programs that it had. -/
theorem settle_eq (c : Calculator) (w : World) :
    (c.settle w).world.scene = w.scene ∧ (c.settle w).programs = c.programs := by
  obtain ⟨w', hw', hscene⟩ := c.exists_settle w
  rw [hw']
  exact ⟨hscene, rfl⟩

/-- What a run leaves: a sound calculator, whose console has everything that was printed before; the
answer is the last result, and a fault is one of the language. -/
structure Leaves (c : Calculator) (r : Except Fault (Option Value)) (c' : Calculator) : Prop where
  sound : c'.Sound
  grows : c.world.console.Grows c'.world.console
  answer : ∀ v, r = .ok v → v = c'.world.memory.ans
  fault : ∀ f, r = .error f → f.OfLanguage

/-- A calculator is sound if its scene is and its programs are those of a sound one. -/
theorem Sound.of_scene (h : c.Sound) {s : Scene} (hs : s.SoundSince c.world.console)
    (hscene : c'.world.scene = s) (hprograms : c'.programs = c.programs) :
    c'.Sound ∧ c.world.console.Grows c'.world.console := by
  subst hscene
  exact ⟨⟨hs.1, fun name p hp => h.programs name p (hprograms ▸ hp)⟩, hs.2⟩

/-- Every run leaves a sound calculator. -/
theorem Sound.run (h : c.Sound) {fuel : Nat} {p : Program} (hp : p.Proper)
    {r : Except Fault (Option Value)} (hrun : c.run fuel p = some (r, c')) : c.Leaves r c' := by
  have hinvariant := sound_invariant c.world.console h.programs
  have hstart : (Activation.start p).program.Proper ∧ (Activation.start p).place.Framed :=
    ⟨hp, Place.Framed.start p.statements⟩
  have hscene : c.world.scene.SoundSince c.world.console := ⟨h.memory, .refl _⟩
  unfold Calculator.run at hrun
  cases hout : execute c.context fuel 0 p c.world with
  | none =>
    rw [hout] at hrun
    cases hrun
  | some out =>
    rw [hout] at hrun
    have hend := hinvariant.holds_execute hstart hscene hout
    cases out with
    | error f w =>
      cases hrun
      obtain ⟨hworld, hprograms⟩ := c.settle_eq w
      obtain ⟨hsound, hgrows⟩ := h.of_scene hend.1 hworld hprograms
      refine ⟨hsound, hgrows, fun v hv => (by cases hv), fun g hg => ?_⟩
      cases hg
      exact hend.2
    | ok signal w =>
      cases hrun
      obtain ⟨hworld, hprograms⟩ := c.settle_eq w
      obtain ⟨hsound, hgrows⟩ := h.of_scene hend hworld hprograms
      refine ⟨⟨hsound.memory, hsound.programs⟩, hgrows, fun v hv => ?_, fun g hg => (by cases hg)⟩
      cases hv
      exact congrArg (fun s : Scene => s.memory.ans) hworld.symm

/-- What the execution of a loaded program leaves. -/
theorem Sound.executeProgram (h : c.Sound) {fuel : Nat} {name : String}
    {r : Except Fault (Option Value)} (hrun : c.executeProgram fuel name = some (r, c')) :
    c.Leaves r c' := by
  unfold Calculator.executeProgram at hrun
  cases hname : c.programs[name]? with
  | none =>
    rw [hname] at hrun
    cases hrun
    refine ⟨h, .refl _, fun v hv => (by cases hv), fun f hf => ?_⟩
    cases hf
    simp [Fault.OfLanguage, Fault.reason, Reason.language]
  | some p =>
    rw [hname] at hrun
    exact h.run (h.programs name p hname) hrun

/-- What a line leaves. -/
theorem Sound.interpret (h : c.Sound) {fuel : Nat} {line : String}
    {r : Except Fault (Option Value)} (hrun : c.interpret fuel line = some (r, c')) :
    c.Leaves r c' := by
  obtain ⟨hscene, hprograms⟩ := c.recordAll_eq (c.debug.reading "" line)
  obtain ⟨hsound, hgrows⟩ := h.of_scene ⟨h.memory, .refl _⟩ hscene hprograms
  unfold Calculator.interpret at hrun
  cases hparse : Program.parse "" line with
  | error f =>
    simp only [hparse] at hrun
    cases hrun
    refine ⟨hsound, hgrows, fun v hv => (by cases hv), fun g hg => ?_⟩
    cases hg
    exact (Program.plain_of_parse hparse).1
  | ok p =>
    simp only [hparse] at hrun
    have hleaves := hsound.run (Program.proper_of_parse hparse) hrun
    exact ⟨hleaves.sound, hgrows.trans hleaves.grows, hleaves.answer, hleaves.fault⟩

/-- Loading a text leaves a sound calculator. -/
theorem Sound.load (h : c.Sound) (name source : String) : (c.load name source).2.Sound := by
  unfold Calculator.load
  split
  · exact h
  · obtain ⟨hscene, hprograms⟩ := c.recordAll_eq (c.debug.reading name source)
    have hsound := (h.of_scene ⟨h.memory, .refl _⟩ hscene hprograms).1
    simp only
    split
    · exact hsound
    · next p hparse =>
      refine ⟨hsound.memory, fun name' p' hp' => ?_⟩
      change (Std.TreeMap.insert _ name p)[name']? = some p' at hp'
      rw [Std.TreeMap.getElem?_insert] at hp'
      split at hp'
      · cases hp'
        exact Program.proper_of_parse hparse
      · exact hsound.programs name' p' hp'

/-- Whatever is done with a calculator, it stays sound. -/
theorem Reachable.sound (h : c.Reachable) : c.Sound := by
  induction h with
  | new d threshold debug =>
    exact ⟨Memory.sound_fresh, fun name p hp => by simp [Calculator.new] at hp⟩
  | load h name source ih => exact ih.load name source
  | interpret h hrun ih => exact (ih.interpret hrun).sound
  | executeProgram h hrun ih => exact (ih.executeProgram hrun).sound
  | elsewhere h k l ih => exact ⟨ih.memory, ih.programs⟩

end Calculator

/-- Whatever was done with a calculator, and at every statement of every program that it can run,
the memory is sound: there is a last result, lists are short and have valid names, and only letters
hold numbers. So every expression that has a value has a short one, and a list variable refuses what
a program wants to store in it for being no list, never for its name or its length. -/
theorem reachable_memory_sound {c : Calculator} (h : c.Reachable) :
    c.world.memory.Sound ∧
    (∀ (e : Expr) v s, (e.eval Builtin.registry).onScene c.world.scene = .ok v s → Value.Held v) ∧
    ∀ p, c.Starts p → ∀ n,
      let m := (Machine.enter 0 p [] c.world.scene).run c.context 0 n
      m.scene.memory.Sound ∧
      (∀ (e : Expr) v s, (e.eval Builtin.registry).onScene m.scene = .ok v s → Value.Held v) ∧
      ∀ st, m.statement? = some st → ∀ memory v t,
        st.instruction.Stores Builtin.registry m.scene memory v t →
        Value.Held v ∧ ∀ name, t = .list name → ∀ f, memory.setList name v = .error f →
          f = .storeList v name := by
  have hsound := h.sound
  refine ⟨hsound.memory, fun e v s => held_of_eval hsound.memory, fun p hp n => ?_⟩
  intro m
  have hinvariant := sound_invariant c.world.console hsound.programs
  have hstart : (Machine.enter 0 p [] c.world.scene).Holds
      (fun a => a.program.Proper ∧ a.place.Framed) (·.SoundSince c.world.console)
      Fault.OfLanguage :=
    hinvariant.holds_enter ⟨hsound.proper hp, Place.Framed.start p.statements⟩ (by simp)
      ⟨hsound.memory, .refl _⟩
  have hm : m.Holds _ _ _ := hinvariant.holds_run hstart n
  have hmemory : m.scene.memory.Sound := hm.scene.1
  refine ⟨hmemory, fun e v s => held_of_eval hmemory, fun st hst memory v t hstores => ?_⟩
  have hproper : st.instruction.Proper := by
    obtain ⟨a, ha, hst⟩ := hm.exists_statement hst
    exact ha.1 st (List.mem_of_getElem? hst)
  obtain ⟨hv, ht⟩ := hstores.held hproper hmemory
  refine ⟨hv, fun name hname f hf => ?_⟩
  subst hname
  exact Memory.setList_error ht hv hf

/-- A program that asks for a list and is given a number. -/
theorem reachable_memory_sound_input :
    let d : Device := ⟨fun _ => .ok "Ans", fun _ _ => none⟩
    let c := { Calculator.new d .trace with debug := .off }
    let i : Instruction := .input "?" (.list "A")
    let v : Option Value := some (.number .zero)
    c.Starts ⟨"", "Input ∟A", [⟨i, .start⟩]⟩ ∧
      ∃ m, i.Stores Builtin.registry c.world.scene m v (.list "A") ∧ Value.Held v ∧
        ∀ f, m.setList "A" v = .error f → f = .storeList v "A" := by
  intro d c i v
  have htokens : Program.normalizedTokens "Input ∟A" =
      .ok [⟨.keyword .input, .start⟩, ⟨.list "A", ⟨1, 7⟩⟩] :=
    Except.eq_ok_of_toOption (by decide +kernel)
  have hstarts : c.Starts ⟨"", "Input ∟A", [⟨i, .start⟩]⟩ := by
    refine .inl ⟨"Input ∟A", ?_⟩
    rw [Program.parse, htokens]
    rfl
  have hanswer : Program.parseExpression "Ans" = .ok (.ans .start) := by
    have htokens : Program.normalizedTokens "Ans" = .ok [⟨.ans, .start⟩] :=
      Except.eq_ok_of_toOption (by decide +kernel)
    have htree : Tree.Expression ([⟨.ans, .start⟩] ++ [] ++ []) (.ans .start) :=
      .chain (.trailed (.leaf (.ans .start)) .nil) .nil .single
    have hread : Expr.ofTokens [⟨.ans, .start⟩] = .ok (.ans .start) :=
      Expr.ofTokens_eq_ok_iff_tree.mpr htree
    rw [Program.parseExpression, htokens]
    change (Expr.ofTokens [⟨.ans, .start⟩]).mapError Fault.parse = _
    rw [hread]
    rfl
  have hask : ∃ s, (ask Builtin.registry "?").onScene c.world.scene = .ok v s := by
    have hread : (ask Builtin.registry "?").onScene c.world.scene =
        (Expr.evalText Builtin.registry "Ans").onScene ⟨.fresh, d, [.request, .offer "?"], #["?"]⟩ := rfl
    rw [hread, Expr.evalText, hanswer]
    exact ⟨_, rfl⟩
  obtain ⟨s, hs⟩ := hask
  have hstores : i.Stores Builtin.registry c.world.scene s.memory v (.list "A") := .input hs
  obtain ⟨-, -, hrun⟩ := reachable_memory_sound (c := c) (.new d .trace .off)
  obtain ⟨-, -, hstore⟩ := hrun _ hstarts 0
  obtain ⟨hv, hlist⟩ := hstore _ rfl _ _ _ hstores
  exact ⟨hstarts, _, hstores, hv, hlist "A" rfl⟩

end Handheld
