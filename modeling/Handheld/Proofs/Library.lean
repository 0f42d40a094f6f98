import Handheld.Proofs.Calls
import Handheld.Proofs.Lines
import Handheld.Proofs.Requests

/-!
# The library of programs

The programs that a calculator holds are told by the history of its requests: under each name stands
what the last text that was loaded under it was parsed to. Loads that fail and runs leave the
library as it is. Every name in it can be written behind the word that calls a program, and such a
call runs the program that stands under the name.
-/

namespace Handheld

/-- The text that a request has loaded under a name. -/
def loadedText? (name : String) : Request × Answer → Option String
  | (.load n source, .loaded (.ok ())) => if n = name then some source else none
  | _ => none

/-- The texts that were loaded under a name, in their order. -/
def History.loads (history : History) (name : String) : List String :=
  history.filterMap (loadedText? name)

/-- What stood under a name became what the last text loaded under it is parsed to; without such a
text it stayed as it was. -/
def Updates (history : History) (name : String) (before after : Option Program) : Prop :=
  match (history.loads name).getLast? with
  | none => after = before
  | some source =>
    Name.checkProgram name = .ok () ∧ ∃ p, Program.parse name source = .ok p ∧ after = some p

private theorem History.loads_append (history history' : History) (name : String) :
    (history ++ history').loads name = history.loads name ++ history'.loads name :=
  List.filterMap_append

/-- Where no text was loaded, nothing changes. -/
private theorem updates_of_loads_nil {history : History} {name : String} {x y : Option Program}
    (hloads : history.loads name = []) (h : y = x) : Updates history name x y := by
  rw [Updates, hloads]
  exact h

section Updates

variable {history history' : History} {name : String} {x y z : Option Program}

/-- Two histories in a row update what stands under a name one after the other. -/
private theorem Updates.trans (h : Updates history name x y) (h' : Updates history' name y z) :
    Updates (history ++ history') name x z := by
  unfold Updates at h h' ⊢
  rw [History.loads_append, List.getLast?_append]
  cases hlast : (history'.loads name).getLast? with
  | none =>
    rw [hlast] at h'
    rw [Option.none_or, h']
    exact h
  | some source =>
    rw [hlast] at h'
    exact h'

/-- In a library that was empty, a name stands for nothing as long as no text was loaded under
it. -/
theorem Updates.eq_none_iff (h : Updates history name none y) :
    y = none ↔ history.loads name = [] := by
  unfold Updates at h
  split at h
  · next hlast => simp [h, List.getLast?_eq_none_iff.mp hlast]
  · next source hlast =>
    obtain ⟨-, p, -, rfl⟩ := h
    have hne : history.loads name ≠ [] := by
      intro hnil
      rw [hnil] at hlast
      cases hlast
    simp [hne]

/-- In a library that was empty, a name stands for what the last text loaded under it is parsed
to. -/
theorem Updates.exists_source {p : Program} (h : Updates history name none (some p)) :
    ∃ source, (history.loads name).getLast? = some source ∧ Name.checkProgram name = .ok () ∧
      Program.parse name source = .ok p := by
  unfold Updates at h
  split at h
  · cases h
  · next source hlast =>
    obtain ⟨hname, q, hparse, hq⟩ := h
    cases hq
    exact ⟨source, hlast, hname, hparse⟩

end Updates

namespace Calculator

variable {c c' : Calculator}

/-- A load succeeds exactly if the name and the text are accepted; it then adds one program, and
otherwise changes nothing but the log. -/
theorem load_cases (c : Calculator) (name source : String) :
    (∃ p log, Name.checkProgram name = .ok () ∧ Program.parse name source = .ok p ∧
      c.load name source =
        (.ok (), { c.recording c.debug log with programs := c.programs.insert name p })) ∨
    ∃ f log, (Name.checkProgram name = .ok () → ∀ p, Program.parse name source ≠ .ok p) ∧
      c.load name source = (.error f, c.recording c.debug log) := by
  have htwins : c.Twins (c.recordAll (c.debug.reading name source)) := by
    obtain ⟨hscene, hprograms⟩ := recordAll_eq c (c.debug.reading name source)
    exact ⟨hprograms, hscene⟩
  have hread := htwins.eq_recording
  rw [debug_recordAll] at hread
  unfold load
  cases hname : Name.checkProgram name with
  | error f => exact Or.inr ⟨_, c.world.log, fun h => (by cases h), rfl⟩
  | ok _ =>
    cases hparse : Program.parse name source with
    | error f =>
      refine Or.inr ⟨f, (c.recordAll (c.debug.reading name source)).world.log, ?_, ?_⟩
      · intro _ p h
        cases h
      · exact congrArg (Prod.mk (Except.error f)) hread
    | ok p =>
      refine Or.inl ⟨p, ?_, rfl, rfl, ?_⟩
      · exact (c.recordAll (c.debug.reading name source)).world.log.record
          (.loaded name p.statements.length)
      · simp only
        rw [hread]
        rfl

/-- A text is loaded exactly if its name is valid and it can be parsed. -/
theorem load_ok_iff (c : Calculator) (name source : String) :
    (c.load name source).1 = .ok () ↔
      Name.checkProgram name = .ok () ∧ ∃ p, Program.parse name source = .ok p := by
  obtain ⟨p, log, hname, hparse, hload⟩ | ⟨f, log, hrefused, hload⟩ := c.load_cases name source
  · simp [hload, hname, hparse]
  · rw [hload]
    constructor
    · intro hok
      cases hok
    · rintro ⟨hname, p, hparse⟩
      exact absurd hparse (hrefused hname p)

/-- A text that is not loaded leaves the calculator as it was, but for its log. -/
private theorem eq_recording_of_load {name source : String} {f : Fault}
    (h : c.load name source = (.error f, c')) : ∃ log, c' = c.recording c.debug log := by
  obtain ⟨p, log, -, -, hok⟩ | ⟨g, log, -, herror⟩ := c.load_cases name source
  · rw [h] at hok
    cases hok
  · rw [h] at herror
    cases herror
    exact ⟨log, rfl⟩

/-- A run leaves the library as it is. -/
theorem programs_run {fuel : Nat} {p : Program} {r : Except Fault (Option Value)}
    (h : c.run fuel p = some (r, c')) : c'.programs = c.programs := by
  unfold run at h
  split at h
  · cases h
  · next f w _ =>
    cases h
    exact (settle_eq c w).2
  · next signal w _ =>
    cases h
    exact (settle_eq c w).2

/-- Executing a program leaves the loaded programs as they are. -/
private theorem programs_executeProgram {fuel : Nat} {name : String}
    {r : Except Fault (Option Value)}
    (h : c.executeProgram fuel name = some (r, c')) : c'.programs = c.programs := by
  unfold executeProgram at h
  split at h
  · cases h
    rfl
  · exact programs_run h

/-- Running a line leaves the loaded programs as they are. -/
private theorem programs_interpret {fuel : Nat} {line : String} {r : Except Fault (Option Value)}
    (h : c.interpret fuel line = some (r, c')) : c'.programs = c.programs := by
  have hread := (recordAll_eq c (c.debug.reading "" line)).2
  unfold interpret at h
  simp only at h
  split at h
  · cases h
    exact hread
  · exact (programs_run h).trans hread

/-- One request updates the library. -/
theorem updates_answer {q : Request} {a : Answer} (h : c.answer q = some (a, c')) (name : String) :
    Updates [(q, a)] name c.programs[name]? c'.programs[name]? := by
  cases q with
  | load n source =>
    have h : (c.load n source).map Answer.loaded id = (a, c') := Option.some.inj h
    obtain ⟨p, log, hname, hparse, hload⟩ | ⟨f, log, -, hload⟩ := c.load_cases n source
    · rw [hload] at h
      cases h
      by_cases hn : n = name
      · subst hn
        have hloads : History.loads [(.load n source, .loaded (.ok ()))] n = [source] := by
          simp [History.loads, loadedText?]
        rw [Updates, hloads]
        exact ⟨hname, p, hparse, Std.TreeMap.getElem?_insert_self⟩
      · refine updates_of_loads_nil (by simp [History.loads, loadedText?, hn]) ?_
        change (c.programs.insert n p)[name]? = _
        rw [Std.TreeMap.getElem?_insert]
        simp [hn]
    · rw [hload] at h
      cases h
      exact updates_of_loads_nil rfl rfl
  | interpret fuel line =>
    obtain ⟨⟨r, d⟩, hrun, hd⟩ := Option.map_eq_some_iff.mp h
    cases hd
    have hprograms := programs_interpret hrun
    exact updates_of_loads_nil rfl (congrArg (·[name]?) hprograms)
  | execute fuel n =>
    obtain ⟨⟨r, d⟩, hrun, hd⟩ := Option.map_eq_some_iff.mp h
    cases hd
    have hprograms := programs_executeProgram hrun
    exact updates_of_loads_nil rfl (congrArg (·[name]?) hprograms)

/-- All requests together update the library. -/
theorem updates_answerAll {qs : List Request} {history : History}
    (h : c.answerAll qs = some (history, c')) (name : String) :
    Updates history name c.programs[name]? c'.programs[name]? := by
  induction qs generalizing c history with
  | nil =>
    cases h
    exact updates_of_loads_nil rfl rfl
  | cons q qs ih =>
    obtain ⟨⟨a, d⟩, hanswer, h⟩ := Option.bind_eq_some_iff.mp h
    obtain ⟨⟨rest, d'⟩, hrest, h⟩ := Option.map_eq_some_iff.mp h
    cases h
    exact (updates_answer hanswer name).trans (ih hrest)

end Calculator

/-- The characters of a program's name. -/
theorem Name.isNameChar_of_checkProgram {name : String} (h : Name.checkProgram name = .ok ()) :
    name.toList ≠ [] ∧ ∀ c ∈ name.toList, Name.isNameChar c = true := by
  unfold checkProgram at h
  split at h
  · cases h
  · next c cs hchars =>
    split at h
    · cases h
    · split at h
      · cases h
      · next hletter =>
        split at h
        · cases h
        · next hfind =>
          rw [hchars]
          refine ⟨by simp, fun x hx => ?_⟩
          rcases List.mem_cons.mp hx with rfl | hx
          · simp only [Bool.not_eq_true, Bool.not_eq_false'] at hletter
            simp [isNameChar, hletter]
          · simpa using List.find?_eq_none.mp hfind x hx

/-- The call of a program is one token. -/
theorem Token.scan_call {name : String} (h : Name.checkProgram name = .ok ()) :
    Token.scan ("prgm" ++ name) = .ok [⟨.program name, .start⟩] := by
  obtain ⟨hne, hname⟩ := Name.isNameChar_of_checkProgram h
  have hreads : ∀ s ∈ [Symbol.program name], s.ReadsBack := by
    simpa using Symbol.readsBack_program hne hname
  have hwritten : Token.written [.program name] = ("prgm" ++ name).toList := List.append_nil _
  rw [Token.scan, ← hwritten]
  exact Token.scanFrom_written_placed hreads .start

namespace Program

/-- The line that calls a program. -/
def callLine (name : String) : Program := ⟨"", "prgm" ++ name, [⟨.call name, .start⟩]⟩

/-- The line that calls a program is parsed to the call. -/
private theorem parse_call {name : String} (h : Name.checkProgram name = .ok ()) :
    parse "" ("prgm" ++ name) = .ok (callLine name) := by
  have hscan := Token.scan_call h
  have htext : normalizedText ("prgm" ++ name) = .ok ("prgm" ++ name) := by
    refine normalizedText_eq_ok_iff.mpr ⟨_, [⟨.program name, .start⟩], hscan, rfl, ?_⟩
    simp [Token.render, Token.statements, Symbol.text]
  have htokens : normalizedTokens ("prgm" ++ name) = .ok [⟨.program name, .start⟩] := by
    rw [normalizedTokens, htext]
    exact congrArg (Except.mapError Fault.lex) hscan
  exact parse_eq_ok_iff.mpr ⟨_, _, htokens, rfl, rfl⟩

/-- A program keeps its name and its text. -/
private theorem name_source_of_parse {name source : String} {p : Program}
    (h : parse name source = .ok p) : p.name = name ∧ p.source = source := by
  obtain ⟨ts, ss, -, -, rfl⟩ := parse_eq_ok_iff.mp h
  exact ⟨rfl, rfl⟩

end Program

/-- How a line ends that calls a program, by the end of that program: `Return` ends the program
only. -/
def Ending.ofCall : Ending Signal → Ending Signal
  | .ok .stop s => .ok .stop s
  | .ok _ s => .ok .none s
  | .error f s => .error f s

/-- The line that calls a program ends as that program does. Of the two extra steps one is the call,
and one runs off the end of the line. -/
private theorem ends_callLine {c : Context} {name : String} {p : Program}
    (hp : c.programs[name]? = some p) (s : Scene) (o : Ending Signal) :
    Ends c 0 (.callLine name) s o ↔ ∃ o', Ends c 1 p s o' ∧ o = o'.ofCall := by
  have hlt : 0 < maxCallDepth := by decide
  have hrun (fuel : Nat) : executeScene c (fuel + 2) 0 (.callLine name) s =
      (executeScene c (fuel + 1) 1 p s).map Ending.ofCall := by
    rw [executeScene_of_lt hlt, runScene_call rfl rfl hp]
    cases executeScene c (fuel + 1) 1 p s with
    | none => rfl
    | some o =>
      cases o with
      | error f s' => rfl
      | ok signal s' =>
        have hend : runScene c (fuel + 1) 1 (.callLine name) 1 [] s' = some (.ok .none s') :=
          runScene_end rfl fuel 1 [] s'
        cases signal with
        | stop => rfl
        | none => exact hend
        | ret => exact hend
  constructor
  · rintro ⟨fuel, h⟩
    have h := executeScene_mono (Nat.le_add_right fuel 2) h
    rw [hrun] at h
    obtain ⟨o', ho', rfl⟩ := Option.map_eq_some_iff.mp h
    exact ⟨o', ⟨fuel + 1, ho'⟩, rfl⟩
  · rintro ⟨o', ⟨fuel, h⟩, rfl⟩
    refine ⟨fuel + 2, ?_⟩
    rw [hrun, executeScene_mono (Nat.le_add_right fuel 1) h]
    rfl

/-- However a calculator was used: its library holds, under exactly the names under which a text was
loaded, what the last such text is parsed to, with that name and text; every name in it is valid. A
load succeeds exactly if the name and the text are accepted, and one that fails changes nothing but
the log; runs do not change the library. Every program in it can be called: the word and the name
are read as one call, the line of that call ends as the program does, and a call of the name in any
running program enters it. -/
theorem library_of_history {debug : Debug} {w : World} {qs : List Request} {history : History}
    {c : Calculator} (h : (Calculator.mk debug ∅ w).answerAll qs = some (history, c)) :
    (∀ name, c.programs[name]? = none ↔ history.loads name = []) ∧
    (∀ name p, c.programs[name]? = some p →
      Name.checkProgram name = .ok () ∧ (history.loads name).getLast? = some p.source ∧
        Program.parse name p.source = .ok p ∧ p.name = name) ∧
    (∀ name source, (c.load name source).1 = .ok () ↔
      Name.checkProgram name = .ok () ∧ ∃ p, Program.parse name source = .ok p) ∧
    (∀ name source f c', c.load name source = (.error f, c') →
      ∃ log, c' = c.recording c.debug log) ∧
    (∀ fuel line r c', c.interpret fuel line = some (r, c') → c'.programs = c.programs) ∧
    (∀ fuel name r c', c.executeProgram fuel name = some (r, c') → c'.programs = c.programs) ∧
    ∀ name p, c.programs[name]? = some p →
      Token.scan ("prgm" ++ name) = .ok [⟨.program name, .start⟩] ∧
      Program.parse "" ("prgm" ++ name) = .ok (.callLine name) ∧
      (∀ s o, Ends c.context 0 (.callLine name) s o ↔
        ∃ o', Ends c.context 1 p s o' ∧ o = o'.ofCall) ∧
      ∀ (a : Activation) callers s below, a.instruction? = some (.call name) →
        (Machine.running a callers s).step c.context below =
          Machine.enter below p (a :: callers) s := by
  have hlibrary (name : String) : Updates history name none c.programs[name]? := by
    have hupdates := Calculator.updates_answerAll h name
    rwa [Std.TreeMap.getElem?_emptyc] at hupdates
  have hstored (name : String) (p : Program) (hp : c.programs[name]? = some p) :
      Name.checkProgram name = .ok () ∧ (history.loads name).getLast? = some p.source ∧
        Program.parse name p.source = .ok p ∧ p.name = name := by
    obtain ⟨source, hlast, hname, hparse⟩ := (hp ▸ hlibrary name).exists_source
    obtain ⟨hpname, rfl⟩ := Program.name_source_of_parse hparse
    exact ⟨hname, hlast, hparse, hpname⟩
  refine ⟨fun name => (hlibrary name).eq_none_iff, hstored, c.load_ok_iff,
    fun _ _ _ _ => Calculator.eq_recording_of_load, fun _ _ _ _ => Calculator.programs_interpret,
    fun _ _ _ _ => Calculator.programs_executeProgram, fun name p hp => ?_⟩
  obtain ⟨hname, -⟩ := hstored name p hp
  refine ⟨Token.scan_call hname, Program.parse_call hname, ends_callLine hp,
    fun a callers s below hcall => ?_⟩
  obtain ⟨st, hst, hinstruction⟩ := Activation.instruction?_eq_some.mp hcall
  exact Machine.step_call hst hinstruction hp

/-- A program that is replaced, after a text that is no program has not replaced it. -/
theorem library_of_history_replaced :
    let d : Device := ⟨fun _ => .ok "", fun _ _ => none⟩
    let qs : List Request :=
      [.load "A" "Stop", .load "A" "Stop Stop", .load "A" "Return", .execute 9 "A"]
    ∃ history c p, (Calculator.mk .off ∅ (World.new d .trace)).answerAll qs = some (history, c) ∧
      history.length = 4 ∧ history.loads "A" = ["Stop", "Return"] ∧
      c.programs["A"]? = some p ∧ Program.parse "A" "Return" = .ok p ∧
      Token.scan ("prgm" ++ "A") = .ok [⟨.program "A", .start⟩] := by
  intro d qs
  have hrun : ((Calculator.mk .off ∅ (World.new d .trace)).answerAll qs).map
      (fun r => (r.1.length, r.1.loads "A", r.2.programs["A"]?.map (·.source))) =
        some (4, ["Stop", "Return"], some "Return") := by
    decide +kernel
  obtain ⟨⟨history, c⟩, hanswers, hseen⟩ := Option.map_eq_some_iff.mp hrun
  obtain ⟨hlength, hseen⟩ := Prod.mk.inj hseen
  obtain ⟨hloads, hsource⟩ := Prod.mk.inj hseen
  obtain ⟨p, hp, hsource⟩ := Option.map_eq_some_iff.mp hsource
  obtain ⟨-, hstored, -, -, -, -, hcalls⟩ := library_of_history hanswers
  obtain ⟨-, -, hparse, -⟩ := hstored "A" p hp
  exact ⟨history, c, p, hanswers, hlength, hloads, hp, hsource ▸ hparse, (hcalls "A" p hp).1⟩

end Handheld
