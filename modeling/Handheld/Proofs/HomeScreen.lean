import Handheld.Proofs.Answers
import Handheld.Proofs.Reachable
import Handheld.Proofs.Writes

/-!
# Lines of the home screen

A line that forms one expression means the same on the home screen as where a program asks for a
value. The two readers agree on such a line: no symbol in an expression separates statements or
begins one of another kind, so the line is a program of one statement with the same tree at the same
places. Its evaluation prints and reads nothing, since `Disp` cannot be called in an expression, and
the statement then sets the last result.
-/

namespace Handheld

namespace Builtin

/-- No operator and no function of the language prints. -/
theorem quietRules (s : Scene) :
    Expr.Rules registry (· ≠ displayName) (fun w => w.scene = s) (fun _ => True) fun _ => True where
  number _ := trivial
  string _ := trivial
  list _ _ := trivial
  ans _ _ := trivial
  stored _ _ _ _ _ := trivial
  unary op := by cases op <;> decide
  binary op := by cases op <;> decide
  run name vs hname _ := by
    unfold Registry.run
    split
    · exact Action.keeps_throw trivial
    · next c hc =>
      have hdisplay : c ≠ .display := fun h => hname (getElem?_eq_display_iff.mp (h ▸ hc))
      exact (Command.keeps_run_of_record (fun _ _ h => h) (fun h => absurd h hdisplay) name vs).mono
        (fun _ _ _ => trivial) fun _ h => h
  language _ _ := trivial

/-- The evaluation of an expression that is parsed from a text leaves the scene as it is. -/
theorem keeps_eval_of_parseExpression {text : String} {e : Expr}
    (h : Program.parseExpression text = .ok e) (s : Scene) :
    (e.eval registry).Keeps (fun w => w.scene = s) (fun _ => True) fun _ => True := by
  have hnames : ∀ name ∈ Symbol.functionNames, name ≠ displayName := by decide
  exact (quietRules s).keeps_eval e ((Program.calls_of_parseExpression h).mono hnames)

end Builtin

/-- A text forms the expression that its tokens form. -/
theorem Program.parseExpression_of_tree {text : String} {ts : List Token} {e : Expr}
    (hts : normalizedTokens text = .ok ts) (h : Tree.Expression ts e) :
    parseExpression text = .ok e := by
  rw [parseExpression, hts]
  exact congrArg (Except.mapError Fault.parse) (Expr.ofTokens_eq_ok_iff_tree.mpr h)

namespace Expr

/-- A line with an expression has the value of the expression. -/
theorem evalText_of_parseExpression {text : String} {e : Expr}
    (h : Program.parseExpression text = .ok e) (r : Registry) : evalText r text = e.eval r := by
  rw [evalText, h]
  rfl

/-- A text that has a value is an expression. -/
theorem exists_parseExpression {r : Registry} {text : String} {w w' : World} {v : Option Value}
    (h : evalText r text w = .ok v w') : ∃ e, Program.parseExpression text = .ok e := by
  cases hparse : Program.parseExpression text with
  | ok e => exact ⟨e, rfl⟩
  | error f =>
    rw [evalText, hparse] at h
    cases h

end Expr

/-- The symbol can stand in an expression. -/
def Symbol.inExpression : Symbol → Bool
  | separator | program _ | store | keyword _ => false
  | _ => true

namespace Grammar

private theorem inExpression_of_leaf {t : Token} {e : Expr} (h : Expr.Leaf t e) :
    t.symbol.inExpression = true := by
  cases h <;> rfl

private theorem inExpression_of_isSign {t : Token} (h : t.IsSign) :
    t.symbol.inExpression = true := by
  rcases h with h | h <;> rw [h] <;> rfl

/-- Symbols between two brackets that can stand in an expression. -/
theorem inExpression_bracketed {l r : Token} {ts : List Token} (hl : l.symbol.inExpression = true)
    (hts : ∀ t ∈ ts, t.symbol.inExpression = true) (hr : r.symbol.inExpression = true) :
    ∀ t ∈ l :: (ts ++ [r]), t.symbol.inExpression = true := by
  refine List.forall_mem_cons.mpr ⟨hl, List.forall_mem_append.mpr ⟨hts, ?_⟩⟩
  exact List.forall_mem_singleton.mpr hr

mutual

/-- Every symbol of an expression can stand in one. -/
theorem Expression.inExpression {ts : List Token} (h : Expression ts) :
    ∀ t ∈ ts, t.symbol.inExpression = true := by
  match h with
  | .chain h hlinks => exact List.forall_mem_append.mpr ⟨h.inExpression, hlinks.inExpression⟩

/-- The symbols of an operand can stand in an expression. -/
theorem Operand.inExpression {ts : List Token} (h : Operand ts) :
    ∀ t ∈ ts, t.symbol.inExpression = true := by
  match h with
  | .negation ht h hpowers =>
    refine List.forall_mem_cons.mpr ⟨inExpression_of_isSign ht, ?_⟩
    exact List.forall_mem_append.mpr ⟨h.inExpression, hpowers.inExpression⟩
  | .trailed h hus =>
    refine List.forall_mem_append.mpr ⟨h.inExpression, fun t ht => ?_⟩
    obtain ⟨op, hop, -⟩ := hus t ht
    rw [hop]
    rfl

/-- The symbols of links can stand in an expression. -/
theorem Links.inExpression {accept : BinaryOp → Bool} {us : List Token} (h : Links accept us) :
    ∀ t ∈ us, t.symbol.inExpression = true := by
  match h with
  | .nil => simp
  | .cons ht _ h hus =>
    refine List.forall_mem_cons.mpr ⟨by rw [ht]; rfl, ?_⟩
    exact List.forall_mem_append.mpr ⟨h.inExpression, hus.inExpression⟩

/-- The symbols of a primary can stand in an expression. -/
theorem Primary.inExpression {ts : List Token} (h : Primary ts) :
    ∀ t ∈ ts, t.symbol.inExpression = true := by
  match h with
  | .leaf h => exact List.forall_mem_singleton.mpr (inExpression_of_leaf h)
  | .group hl h hr =>
    exact inExpression_bracketed (by rw [hl]; rfl) h.inExpression (by rw [hr]; rfl)
  | .list hl h hr =>
    exact inExpression_bracketed (by rw [hl]; rfl) h.inExpression (by rw [hr]; rfl)
  | .call hl h hr =>
    exact inExpression_bracketed (by rw [hl]; rfl) h.inExpression (by rw [hr]; rfl)

/-- The symbols of items can stand in an expression. -/
theorem Items.inExpression {ts : List Token} (h : Items ts) :
    ∀ t ∈ ts, t.symbol.inExpression = true := by
  match h with
  | .none => simp
  | .some h => exact h.inExpression

/-- The symbols of one or more items can stand in an expression. -/
theorem SomeItems.inExpression {ts : List Token} (h : SomeItems ts) :
    ∀ t ∈ ts, t.symbol.inExpression = true := by
  match h with
  | .one h => exact h.inExpression
  | .more h ht hmore =>
    refine List.forall_mem_append.mpr ⟨h.inExpression, List.forall_mem_cons.mpr ⟨?_, ?_⟩⟩
    · rw [ht]
      rfl
    · exact hmore.inExpression

end

end Grammar

/-- Tokens without a separator are one piece. -/
theorem Token.statements_of_no_separator {ts : List Token}
    (h : ∀ t ∈ ts, t.symbol ≠ .separator) : statements ts = [ts] := by
  induction ts with
  | nil => rfl
  | cons t ts ih =>
    obtain ⟨ht, hts⟩ := List.forall_mem_cons.mp h
    exact statements_cons ht (ih hts)

namespace Statement

/-- A statement that begins like an expression is read as one. -/
theorem readInstruction_of_inExpression {t : Token} (h : t.symbol.inExpression = true)
    (ts : List Token) : readInstruction t ts = readExpression (t :: ts) := by
  obtain ⟨s, p⟩ := t
  cases s with
  | separator | program | store | keyword => cases h
  | _ => rfl

/-- An expression with no variable behind it is stored nowhere. -/
private theorem readExpression_of_ofTokens {ts : List Token} {e : Expr}
    (h : Expr.ofTokens ts = .ok e) : readExpression ts = .ok (.expression e none) := by
  obtain ⟨r, hr, rfl, hrest⟩ := Expr.ofTokens_eq_ok_iff_reads.mp h
  obtain ⟨value, rest, hshorter⟩ := r
  subst hrest
  rw [readExpression, hr]
  rfl

/-- Tokens that form an expression form one statement, which has the same tree; there is at least
one token, since reading an expression takes one. -/
private theorem ofTokens_of_expression {ts : List Token} {e : Expr} (h : Expr.ofTokens ts = .ok e) :
    ∃ pos, ofTokens ts = .ok [⟨.expression e none, pos⟩] := by
  have hts := (Expr.ofTokens_eq_ok_iff_tree.mp h).grammar.inExpression
  cases ts with
  | nil =>
    rw [Expr.ofTokens_eq_ok_iff_reads] at h
    obtain ⟨r, -⟩ := h
    exact absurd r.shorter (Nat.not_lt_zero _)
  | cons t ts =>
    have hpieces : Token.statements (t :: ts) = [t :: ts] :=
      Token.statements_of_no_separator fun t' ht' hsep => by
        have hin := hts t' ht'
        rw [hsep] at hin
        cases hin
    have hread : readInstruction t ts = .ok (.expression e none) :=
      (readInstruction_of_inExpression (hts t (List.mem_cons_self ..)) ts).trans
        (readExpression_of_ofTokens h)
    have hpiece : ofPiece? (t :: ts) = .ok (some ⟨.expression e none, t.position⟩) := by
      rw [ofPiece?, hread]
      rfl
    refine ⟨t.position, ?_⟩
    simp only [ofTokens, readAll, hpieces, readPieces, hpiece]
    rfl

end Statement

/-- A text that forms an expression is a program of one statement, which has the same tree. -/
theorem Program.parse_of_parseExpression {text : String} {e : Expr}
    (h : parseExpression text = .ok e) (name : String) :
    ∃ pos, parse name text = .ok ⟨name, text, [⟨.expression e none, pos⟩]⟩ := by
  obtain ⟨ts, hts, h⟩ := Except.bind_ok h
  obtain ⟨pos, hpos⟩ := Statement.ofTokens_of_expression (Except.mapError_ok h)
  refine ⟨pos, ?_⟩
  rw [parse, hts]
  change ((Statement.ofTokens ts).mapError Fault.parse >>= fun ss => pure _) = _
  rw [hpos]
  rfl

/-- The answer after a run: the last result, unless the run failed. -/
def Ending.answer : Ending Signal → Except Fault (Option Value)
  | .ok _ s => .ok s.memory.ans
  | .error f _ => .error f

/-- How a line ends whose expression came out so. -/
def Ending.remembered : Ending (Option Value) → Ending Signal
  | .ok v s => .ok .none { s with memory := s.memory.setAns v }
  | .error f s => .error f s

/-- A program that consists of an expression evaluates it and sets the last result. There is no
second statement, so it ends in the next step. -/
private theorem executeScene_expression (c : Context) (fuel : Nat) {depth : Nat}
    (hd : depth < maxCallDepth) (name source : String) (e : Expr) (pos : Position) (s : Scene) :
    executeScene c (fuel + 2) depth ⟨name, source, [⟨.expression e none, pos⟩]⟩ s =
      some (Ending.remembered ((e.eval c.commands).onScene s)) := by
  let p : Program := ⟨name, source, [⟨.expression e none, pos⟩]⟩
  have hst : p.statements[0]? = some ⟨.expression e none, pos⟩ := rfl
  have hstep := Place.runExpression_onScene ⟨p.statements, 0, []⟩ c.commands e none s
  rw [executeScene_of_lt hd, runScene_step hst (by simp)]
  change Ending.andThen (Action.onScene (Place.runExpression _ _ e none) s) _ = _
  rw [hstep]
  cases (e.eval c.commands).onScene s with
  | error f s' => rfl
  | ok v s' =>
    exact runScene_end rfl fuel (depth + 1) [] _

namespace Calculator

/-- A run changes nothing of a calculator but the world, and ends as on the scene. -/
theorem run_of_executeScene {c : Calculator} {fuel : Nat} {p : Program} {o : Ending Signal}
    (h : executeScene c.context fuel 0 p c.world.scene = some o) :
    ∃ w, c.run fuel p = some (o.answer, { c with world := w }) ∧ w.scene = o.scene := by
  rw [← execute_seen] at h
  obtain ⟨out, hout, rfl⟩ := Option.map_eq_some_iff.mp h
  unfold run
  rw [hout]
  cases out with
  | error f w =>
    obtain ⟨w', hw', hscene⟩ := c.exists_settle w
    exact ⟨w', by simp only [hw']; rfl, hscene⟩
  | ok signal w =>
    obtain ⟨w', hw', hscene⟩ := c.exists_settle w
    exact ⟨w'.record (.finished p.name signal), by simp only [hw']; rfl, hscene⟩

/-- A line that forms an expression evaluates it and sets the last result. -/
theorem interpret_of_parseExpression (c : Calculator) {text : String} {e : Expr}
    (h : Program.parseExpression text = .ok e) (fuel : Nat) :
    let o := Ending.remembered (Outcome.seen (e.eval Builtin.registry c.world))
    ∃ w, c.interpret (fuel + 2) text = some (o.answer, { c with world := w }) ∧
      w.scene = o.scene := by
  intro o
  obtain ⟨pos, hparse⟩ := Program.parse_of_parseExpression h ""
  obtain ⟨w, hw, hscene⟩ := c.exists_recordAll (c.debug.reading "" text)
  unfold interpret
  simp only [hparse, hw]
  refine run_of_executeScene (c := { c with world := w }) ?_
  rw [executeScene_expression _ fuel (by decide), hscene]
  exact congrArg (some ∘ Ending.remembered) ((Expr.unlogged_eval _ e).seen_eq c.world).symm

/-- A line that forms one expression means the same on the home screen as where a value is asked
for. If its text has a value, the line gives that value, which becomes the last result, and nothing
else of the calculator changes but its log. If its text is an expression whose evaluation fails, the
line fails with the same fault, and nothing changes but the log. -/
theorem interpret_of_evalText (c : Calculator) (text : String) (fuel : Nat) :
    (∀ v w, Expr.evalText Builtin.registry text c.world = .ok v w →
      ∃ w', c.interpret (fuel + 2) text = some (.ok v, { c with world := w' }) ∧
        w'.memory = c.world.memory.setAns v ∧ w'.console = c.world.console) ∧
    ∀ e f w, Program.parseExpression text = .ok e →
      Expr.evalText Builtin.registry text c.world = .error f w →
      ∃ w', c.interpret (fuel + 2) text = some (.error f, { c with world := w' }) ∧
        w'.memory = c.world.memory ∧ w'.console = c.world.console := by
  refine ⟨fun v w hv => ?_, fun e f w he hf => ?_⟩
  · obtain ⟨e, he⟩ := Expr.exists_parseExpression hv
    rw [Expr.evalText_of_parseExpression he] at hv
    have hquiet := (Builtin.keeps_eval_of_parseExpression he c.world.scene).of_ok rfl hv
    obtain ⟨w', hrun, hscene⟩ := c.interpret_of_parseExpression he fuel
    rw [hv] at hrun hscene
    refine ⟨w', hrun, ?_, ?_⟩
    · rw [← World.memory_eq_of_scene hquiet.1]
      exact congrArg Scene.memory hscene
    · rw [← World.console_eq_of_scene hquiet.1]
      exact congrArg Scene.console hscene
  · rw [Expr.evalText_of_parseExpression he] at hf
    have hquiet := (Builtin.keeps_eval_of_parseExpression he c.world.scene).of_error rfl hf
    obtain ⟨w', hrun, hscene⟩ := c.interpret_of_parseExpression he fuel
    rw [hf] at hrun hscene
    have hsame : w'.scene = c.world.scene := hscene.trans hquiet.1
    exact ⟨w', hrun, World.memory_eq_of_scene hsame, World.console_eq_of_scene hsame⟩

/-- On a new calculator an open parenthesis before a variable gives zero, and a list that was never
stored is missing at the end of a sum. -/
theorem interpret_of_evalText_new :
    let c := new (.stream "") .trace
    (∃ w, Expr.evalText Builtin.registry "(A" c.world = .ok (some (.number .zero)) w) ∧
      (∃ w, c.interpret 2 "(A" = some (.ok (some (.number .zero)), { c with world := w }) ∧
        w.memory = Memory.fresh.setAns (some (.number .zero)) ∧ w.console = c.world.console) ∧
      (∃ e w, Program.parseExpression "A+∟AB" = .ok e ∧
        Expr.evalText Builtin.registry "A+∟AB" c.world = .error (.undefinedList "AB") w) ∧
      ∃ w, c.interpret 2 "A+∟AB" = some (.error (.undefinedList "AB"), { c with world := w }) ∧
        w.memory = Memory.fresh ∧ w.console = c.world.console := by
  intro c
  let a (column : Nat) : Token := ⟨.var 'A', ⟨1, column⟩⟩
  let ab : Token := ⟨.list "AB", ⟨1, 5⟩⟩
  have ha (column : Nat) : Tree.Operand false ([a column] ++ []) (.var 'A' ⟨1, column⟩) :=
    .trailed (.leaf (.var 'A' _)) .nil
  have hab : Tree.Operand false ([ab] ++ []) (.listVar "AB" ⟨1, 5⟩) :=
    .trailed (.leaf (.list "AB" _)) .nil
  have hgroup : Tree.Primary [⟨.leftParen, ⟨1, 1⟩⟩, a 3, ⟨.rightParen, ⟨1, 5⟩⟩] (.var 'A' ⟨1, 3⟩) :=
    .group rfl (.chain (ha 3) .nil .single) rfl
  have hvalue : Program.parseExpression "(A" = .ok (.var 'A' ⟨1, 3⟩) :=
    Program.parseExpression_of_tree (Except.eq_ok_of_toOption (by decide +kernel))
      (.chain (.trailed hgroup .nil) .nil .single)
  have hfault : Program.parseExpression "A+∟AB" =
      .ok (.binary .add (.var 'A' ⟨1, 1⟩) (.listVar "AB" ⟨1, 5⟩) ⟨1, 3⟩) :=
    Program.parseExpression_of_tree (Except.eq_ok_of_toOption (by decide +kernel))
      (.chain (ha 1) (.cons (t := ⟨.binary .add, ⟨1, 3⟩⟩) rfl (by simp) hab .nil)
        (Expr.assemble_eq_iff.mp rfl))
  have heval : Expr.evalText Builtin.registry "(A" c.world =
      .ok (some (.number .zero)) c.world := by
    rw [Expr.evalText_of_parseExpression hvalue]
    rfl
  have hfails : Expr.evalText Builtin.registry "A+∟AB" c.world =
      .error (.undefinedList "AB") c.world := by
    rw [Expr.evalText_of_parseExpression hfault]
    rfl
  exact ⟨⟨_, heval⟩, (interpret_of_evalText c "(A" 0).1 _ _ heval, ⟨_, _, hfault, hfails⟩,
    (interpret_of_evalText c "A+∟AB" 0).2 _ _ _ hfault hfails⟩

end Calculator

end Handheld
