import Handheld.Proofs.Reachable

/-!
# Requests

A calculator is asked to load programs and to run programs and lines, one request after the other.
Its settings say what it records: which details, and from which level on. Two calculators that
differ in what they record answer every sequence of requests alike, and go on differing in that
only.
-/

namespace Handheld

/-- What a calculator can be asked for; a run is given up after `fuel` statements. -/
inductive Request
  | load (name source : String)
  | interpret (fuel : Nat) (line : String)
  | execute (fuel : Nat) (name : String)

/-- What comes back from a request. -/
inductive Answer
  | loaded (r : Except Fault Unit)
  | ran (r : Except Fault (Option Value))

/-- Requests with their answers, in the order in which they were made. -/
abbrev History := List (Request × Answer)

namespace Calculator

/-- Answers a request, unless its run is given up. -/
def answer (c : Calculator) : Request → Option (Answer × Calculator)
  | .load name source => some ((c.load name source).map .loaded id)
  | .interpret fuel line => (c.interpret fuel line).map (Prod.map .ran id)
  | .execute fuel name => (c.executeProgram fuel name).map (Prod.map .ran id)

/-- Answers requests in their order, unless the run of one is given up. -/
def answerAll (c : Calculator) : List Request → Option (History × Calculator)
  | [] => some ([], c)
  | q :: qs =>
    (c.answer q).bind fun (a, c) =>
      (c.answerAll qs).map fun (history, c) => ((q, a) :: history, c)

/-- The calculator with other settings and another log. -/
def recording (c : Calculator) (debug : Debug) (log : Log) : Calculator :=
  { c with debug := debug, world := { c.world with log := log } }

/-- The calculators have the same programs and scene; they may differ in settings and log. -/
structure Twins (c d : Calculator) : Prop where
  programs : d.programs = c.programs
  scene : d.world.scene = c.world.scene

private theorem twins_recording (c : Calculator) (debug : Debug) (log : Log) :
    c.Twins (c.recording debug log) := ⟨rfl, rfl⟩

variable {c d : Calculator}

/-- A twin has other settings and another log, and nothing else. -/
theorem Twins.eq_recording (h : c.Twins d) : d = c.recording d.debug d.world.log := by
  obtain ⟨debug, programs, memory, console, log⟩ := d
  obtain rfl : programs = c.programs := h.programs
  obtain rfl : memory = c.world.memory := congrArg Scene.memory h.scene
  obtain rfl : console = c.world.console := congrArg Scene.console h.scene
  rfl

private theorem Twins.record (h : c.Twins d) (e e' : Event) : (c.record e).Twins (d.record e') :=
  ⟨h.programs, h.scene⟩

/-- Twins that record different events stay twins. -/
theorem Twins.recordAll (h : c.Twins d) (es es' : List Event) :
    (c.recordAll es).Twins (d.recordAll es') := by
  obtain ⟨hscene, hprograms⟩ := recordAll_eq c es
  obtain ⟨hscene', hprograms'⟩ := recordAll_eq d es'
  refine ⟨?_, ?_⟩
  · rw [hprograms, hprograms', h.programs]
  · rw [hscene, hscene', h.scene]

/-- Twins whose runs left the same scene stay twins. -/
theorem Twins.settle (h : c.Twins d) {w v : World} (hworld : v.scene = w.scene) :
    (c.settle w).Twins (d.settle v) := by
  obtain ⟨hscene, hprograms⟩ := settle_eq c w
  obtain ⟨hscene', hprograms'⟩ := settle_eq d v
  refine ⟨?_, ?_⟩
  · rw [hprograms, hprograms', h.programs]
  · rw [hscene, hscene', hworld]

/-- Recording leaves the settings as they are. -/
theorem debug_recordAll (c : Calculator) (es : List Event) : (c.recordAll es).debug = c.debug := by
  induction es generalizing c with
  | nil => rfl
  | cons e es ih => exact ih (c.record e)

private theorem debug_settle (c : Calculator) (w : World) : (c.settle w).debug = c.debug := by
  unfold settle
  simp only
  split <;> rfl

/-- The same result, or none, and the calculators after it differ in what they record: the second
one has the settings `debug`. -/
def Matching {α : Type} (debug : Debug) (x y : Option (α × Calculator)) : Prop :=
  ∃ log, y = x.map fun (r, c) => (r, c.recording debug log)

private theorem matching_none {α : Type} (debug : Debug) (log : Log) :
    Matching debug (none : Option (α × Calculator)) none := ⟨log, rfl⟩

/-- The same result with calculators that differ in what they record. -/
private theorem matching_some {α : Type} {debug : Debug} (r : α) (h : c.Twins d)
    (hdebug : d.debug = debug) : Matching debug (some (r, c)) (some (r, d)) := by
  subst hdebug
  exact ⟨d.world.log, congrArg (fun d => some (r, d)) h.eq_recording⟩

/-- Matching results stay so when they are written in another way. -/
theorem Matching.map {α β : Type} {debug : Debug} {x y : Option (α × Calculator)}
    (h : Matching debug x y) (f : α → β) :
    Matching debug (x.map (Prod.map f id)) (y.map (Prod.map f id)) := by
  obtain ⟨log, rfl⟩ := h
  refine ⟨log, ?_⟩
  cases x <;> rfl

/-- Twins load alike. -/
theorem Twins.load (h : c.Twins d) (name source : String) :
    Matching d.debug (some (c.load name source)) (some (d.load name source)) := by
  unfold Calculator.load
  split
  · exact matching_some _ h rfl
  · have hread := h.recordAll (c.debug.reading name source) (d.debug.reading name source)
    have hdebug := debug_recordAll d (d.debug.reading name source)
    simp only
    split
    · exact matching_some _ hread hdebug
    · next p _ =>
      refine matching_some _ ⟨?_, hread.scene⟩ hdebug
      exact congrArg (·.insert name p) hread.programs

/-- Twins run a program alike: a run does not depend on the log. -/
theorem Twins.run (h : c.Twins d) (fuel : Nat) (p : Program) :
    Matching d.debug (c.run fuel p) (d.run fuel p) := by
  have hcontext : d.context = c.context := congrArg (Context.mk Builtin.registry) h.programs
  have hseen : (execute c.context fuel 0 p c.world).map Outcome.seen =
      (execute c.context fuel 0 p d.world).map Outcome.seen := by
    rw [execute_seen, execute_seen, h.scene]
  unfold Calculator.run
  rw [hcontext]
  obtain ⟨hc, hd⟩ | ⟨o, o', hc, hd, ho⟩ := Outcome.map_seen_eq_cases hseen
  · rw [hc, hd]
    exact matching_none _ d.world.log
  · rw [hc, hd]
    obtain ⟨signal, w, v, rfl, rfl, hs⟩ | ⟨f, w, v, rfl, rfl, hs⟩ := Outcome.seen_eq_cases ho
    · simp only [World.memory_eq_of_scene hs]
      exact matching_some _ ((h.settle hs.symm).record _ _) (debug_settle d v)
    · exact matching_some _ (h.settle hs.symm) (debug_settle d v)

/-- Twins answer a request alike. -/
theorem Twins.answer (h : c.Twins d) (q : Request) :
    Matching d.debug (c.answer q) (d.answer q) := by
  cases q with
  | load name source => exact (h.load name source).map _
  | interpret fuel line =>
    refine Matching.map ?_ _
    have hread := h.recordAll (c.debug.reading "" line) (d.debug.reading "" line)
    have hdebug := debug_recordAll d (d.debug.reading "" line)
    unfold Calculator.interpret
    simp only
    split
    · exact matching_some _ hread hdebug
    · next p _ =>
      have hrun := hread.run fuel p
      rwa [hdebug] at hrun
  | execute fuel name =>
    refine Matching.map ?_ _
    unfold Calculator.executeProgram
    rw [h.programs]
    split
    · exact matching_some _ h rfl
    · next p _ => exact h.run fuel p

/-- Twins answer all requests alike. -/
theorem Twins.answerAll (h : c.Twins d) (qs : List Request) :
    Matching d.debug (c.answerAll qs) (d.answerAll qs) := by
  induction qs generalizing c d with
  | nil => exact matching_some _ h rfl
  | cons q qs ih =>
    obtain ⟨log, hd⟩ := h.answer q
    unfold Calculator.answerAll
    rw [hd]
    cases c.answer q with
    | none => exact matching_none _ log
    | some result =>
      obtain ⟨a, c'⟩ := result
      obtain ⟨log', hd'⟩ := ih (twins_recording c' d.debug log)
      refine ⟨log', ?_⟩
      simp only [Option.map_some, Option.bind_some]
      rw [hd']
      cases c'.answerAll qs <;> rfl

/-- Whatever a calculator is set to record, and whatever is in its log, it gives the same answers to
every sequence of requests, and its memory, console and programs come out the same; so does every
run of every program at every depth of calls. -/
theorem answerAll_recording (c : Calculator) (debug : Debug) (log : Log) :
    (∀ qs : List Request, ∃ log', (c.recording debug log).answerAll qs =
      (c.answerAll qs).map fun (history, c') => (history, c'.recording debug log')) ∧
    ∀ (fuel depth : Nat) (p : Program),
      (execute c.context fuel depth p (c.recording debug log).world).map Outcome.seen =
        (execute c.context fuel depth p c.world).map Outcome.seen := by
  refine ⟨fun qs => (twins_recording c debug log).answerAll qs, fun fuel depth p => ?_⟩
  rw [execute_seen, execute_seen]
  rfl

end Calculator

end Handheld
