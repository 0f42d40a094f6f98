import Handheld.Proofs.Climbing
import Handheld.Proofs.HomeScreen
import Handheld.Proofs.Lines

/-!
# The parser stays inside of its tokens

The agreement with the readers extends to statements and whole programs. So on any tokens every run
of the parser by index ends, at a depth linear in their number; no index of it lies outside of the
list it is used on, and what it reports as taken is at least one token and at most all of them.
-/

namespace Handheld.Statement

/-- Tokens without a separator are one piece. -/
private theorem ofTokens_of_no_separator {us : List Token} (hus : ∀ t ∈ us, t.symbol ≠ .separator) :
    ofTokens us = do
      let s? ← ofPiece? us
      let more ← .ok []
      return s?.toList ++ more := by
  rw [ofTokens_eq_ofPieces, Token.statements_of_no_separator hus, ofPieces_cons]
  rfl

/-- The tokens up to the first separator are a piece. -/
private theorem ofTokens_append {us rest : List Token} {t : Token}
    (hus : ∀ t ∈ us, t.symbol ≠ .separator) (ht : t.symbol = .separator) :
    ofTokens (us ++ t :: rest) = do
      let s? ← ofPiece? us
      let more ← ofTokens rest
      return s?.toList ++ more := by
  rw [ofTokens_eq_ofPieces, Token.statements_append ht, Token.statements_of_no_separator hus,
    List.singleton_append, ofPieces_cons]
  rfl

end Handheld.Statement

namespace Handheld.Indexed

open Handheld.Expr

variable {ts rest : List Token} {t : Token} {i d : Nat}

private theorem expectEnd_of_drop (hdrop : ts.drop i = t :: rest) :
    expectEnd ts i = Run.refuse (.unexpected t) := by
  rw [expectEnd, if_pos (lt_length_of_drop hdrop), elementAt_eq (getElem?_of_drop hdrop), pure_bind]

private theorem expectEnd_of_nil (hdrop : ts.drop i = []) : expectEnd ts i = pure () :=
  if_neg (Nat.not_lt.mpr (List.drop_eq_nil_iff.mp hdrop))

private theorem agrees_expectEnd {us : List Token} (hdrop : ts.drop i = us) :
    (expectEnd ts i).Agrees (· = ·) (Statement.expectEnd us) := by
  cases us with
  | nil =>
    rw [expectEnd_of_nil hdrop]
    exact .returns rfl
  | cons t rest =>
    rw [expectEnd_of_drop hdrop]
    exact .refuses _

/-- A target agrees, its place aside. -/
private theorem agrees_parseTarget (hdrop : ts.drop i = t :: rest) :
    (parseTarget ts i).Agrees (fun a b => a.1 = b) (Statement.targetOf t) := by
  rw [parseTarget, expectMore_of_lt (lt_length_of_drop hdrop), pure_bind,
    elementAt_eq (getElem?_of_drop hdrop), pure_bind, Statement.targetOf]
  cases t.symbol with
  | var c => exact .returns rfl
  | list n => exact .returns rfl
  | _ => exact .refuses _

private theorem parseTarget_of_nil (hdrop : ts.drop i = [t]) :
    parseTarget ts (i + 1) = Run.refuse (.endOfInput (some t)) := by
  have hend : ts.drop (i + 1) = [] := drop_add_one_of_drop hdrop
  rw [parseTarget, expectMore_of_drop hdrop (List.cons_ne_nil t []) hend]
  rfl

/-- A target that is the last thing behind a token. -/
theorem agrees_readTarget {α : Type} (hdrop : ts.drop i = t :: rest) (make : Target → α) :
    Run.Agrees (· = ·)
      (do
        let (target, _) ← parseTarget ts (i + 1)
        expectEnd ts (i + 1 + 1)
        return make target)
      (do return make (← Statement.readTarget t rest)) := by
  have hrest := drop_add_one_of_drop hdrop
  cases rest with
  | nil =>
    rw [parseTarget_of_nil hdrop]
    exact .refuses _
  | cons u rest =>
    rw [Statement.readTarget, bind_assoc]
    refine (agrees_parseTarget hrest).bind ?_
    rintro ⟨target, p⟩ _ rfl -
    rw [bind_assoc]
    exact (agrees_expectEnd (drop_add_one_of_drop hrest)).bind fun _ _ _ _ => .returns rfl

/-- Whole expressions agree. -/
theorem agrees_parseWhole (hd : 5 * ts.length + 1 < d) :
    (parseWhole d ts).Agrees (· = ·) (Expr.ofTokens ts) := by
  rw [parseWhole, Expr.ofTokens]
  by_cases hts : ts = []
  · rw [hts, expectMore_nil, readChain, readOperand]
    exact .refuses _
  rw [expectMore_of_lt (List.length_pos_iff.mpr hts), pure_bind]
  refine ((agreement ts).expression hd).bind ?_
  rintro ⟨e, i⟩ ⟨value, rest, hshorter⟩ hr -
  obtain rfl : e = value := hr.value_eq
  have hdrop : ts.drop i = rest := hr.drop_eq
  dsimp only
  cases rest with
  | nil =>
    rw [expectEnd_of_nil hdrop]
    exact .returns rfl
  | cons t rest =>
    rw [expectEnd_of_drop hdrop]
    exact .refuses _

/-- Conditions agree. -/
private theorem agrees_parseCondition (t : Token) (hd : 5 * ts.length + 1 < d) :
    (parseCondition d (t :: ts)).Agrees (· = ·) (Statement.readCondition t ts) := by
  rw [parseCondition]
  refine .expectMore (i := 0) rfl (fun hnil => ?_) fun hne => ?_
  · rw [hnil, Statement.readCondition]
  · rw [tailFrom_of_drop (i := 0) rfl, pure_bind, Statement.readCondition]
    · exact agrees_parseWhole hd
    · exact hne

/-- The arguments from an index on come after those that were read before. -/
theorem agrees_parseArgumentsFrom (es : List Expr) (hle : i ≤ ts.length)
    (hd : 5 * (ts.length - i) + 2 < d) :
    (parseArgumentsFrom d ts es i).Agrees (fun a b => a = es ++ b)
      (Statement.readArguments (ts.drop i)) := by
  induction d generalizing es i with
  | zero => cases hd
  | succ d arguments =>
    rw [parseArgumentsFrom, Statement.readArguments]
    by_cases hlt : i < ts.length
    · have hne : (ts.drop i).isEmpty = false := by simpa using hlt
      rw [if_pos hlt, hne, tailFrom_eq hle, pure_bind]
      simp only [Bool.false_eq_true, if_false]
      refine ((agreement _).expression (by rw [List.length_drop]; omega)).bind ?_
      rintro ⟨e, n⟩ ⟨value, rest, hshorter⟩ hr -
      obtain rfl : e = value := hr.value_eq
      obtain ⟨-, hle', hrest⟩ := hr.of_drop rfl hle
      dsimp only
      cases rest with
      | nil =>
        have hend : i + n = ts.length := Nat.le_antisymm hle' (List.drop_eq_nil_iff.mp hrest)
        rw [if_pos hend]
        exact .returns rfl
      | cons t rest =>
        have hend := lt_length_of_drop hrest
        rw [if_neg (Nat.ne_of_lt hend), elementAt_eq (getElem?_of_drop hrest), pure_bind]
        by_cases hcomma : t.symbol = .comma
        · simp only [if_pos hcomma]
          refine .expectMore hrest (fun hnil => ?_) fun hmore => ?_
          · subst hnil
            rfl
          have hrest' := drop_add_one_of_drop hrest
          have harguments := arguments (es ++ [e]) hend (by omega)
          rw [hrest'] at harguments
          rw [if_neg (by simpa using hmore)]
          refine harguments.map_right fun a b hab _ => ⟨_, rfl, ?_⟩
          rw [hab, List.append_assoc, List.singleton_append]
        · simp only [if_neg hcomma]
          exact .refuses _
    · have hnil : ts.drop i = [] := List.drop_eq_nil_iff.mpr (Nat.le_of_not_lt hlt)
      rw [if_neg hlt, hnil]
      exact .returns (List.append_nil es).symm

/-- Arguments agree. -/
theorem agrees_parseArguments (hd : 5 * ts.length + 2 < d) :
    (parseArguments d ts).Agrees (· = ·) (Statement.readArguments ts) :=
  agrees_parseArgumentsFrom [] (Nat.zero_le _) hd

/-- The targets behind a token come after those that were read before. -/
theorem agrees_parseTargetsFrom (targets : List Target) (hdrop : ts.drop i = t :: rest)
    (hd : rest.length < d) :
    (parseTargetsFrom d ts targets (i + 1)).Agrees (fun a b => a = targets ++ b)
      (Statement.readTargets t rest) := by
  induction d generalizing targets t rest i with
  | zero => cases hd
  | succ d more =>
    rw [parseTargetsFrom]
    have hrest := drop_add_one_of_drop hdrop
    match rest with
    | [] =>
      rw [parseTarget_of_nil hdrop, Statement.readTargets]
      exact .refuses _
    | [u] =>
      rw [Statement.readTargets]
      refine (agrees_parseTarget hrest).bind ?_
      rintro ⟨target, p⟩ _ rfl -
      have hend : i + 1 + 1 = ts.length := by
        have hlength := congrArg List.length hrest
        simp at hlength
        omega
      simp only [if_pos hend]
      exact .returns rfl
    | u :: c :: rest =>
      have hcomma := drop_add_one_of_drop hrest
      rw [Statement.readTargets]
      refine (agrees_parseTarget hrest).bind ?_
      rintro ⟨target, p⟩ _ rfl -
      simp only [if_neg (Nat.ne_of_lt (lt_length_of_drop hcomma)),
        elementAt_eq (getElem?_of_drop hcomma), pure_bind]
      by_cases hc : c.symbol = .comma
      · rw [if_pos hc, if_pos hc]
        refine (more (targets ++ [target]) hcomma (by simp at hd; omega)).map_right ?_
        rintro a b rfl -
        exact ⟨_, rfl, by simp⟩
      · rw [if_neg hc, if_neg hc]
        exact .refuses _

/-- Statements that read a value for each of some targets agree. -/
theorem agrees_parsePrompt (t : Token) (hd : ts.length < d) :
    (parsePrompt d (t :: ts)).Agrees (· = ·) (do
      let instruction ← (do return .prompt (← Statement.readTargets t ts))
      return ⟨instruction, t.position⟩) := by
  rw [bind_assoc]
  refine (agrees_parseTargetsFrom (i := 0) [] rfl hd).bind ?_
  rintro targets _ rfl -
  rw [elementAt_eq rfl, pure_bind]
  exact .returns rfl

private theorem agrees_parseInputTarget (text : String) (pos : Position)
    (hdrop : ts.drop i = t :: rest) :
    (parseInputTarget ts text pos (i + 1)).Agrees (· = ·) (do
      let instruction ← (do return .input text (← Statement.readTarget t rest))
      return ⟨instruction, pos⟩) := by
  rw [bind_assoc]
  exact agrees_readTarget hdrop fun target => (⟨.input text target, pos⟩ : Statement)

/-- Statements that read one value agree, with a text or without. -/
theorem agrees_parseInput (t : Token) (ts : List Token) :
    (parseInput (t :: ts)).Agrees (· = ·) (do
      let instruction ← Statement.readInput t ts
      return ⟨instruction, t.position⟩) := by
  have hword : (t :: ts).drop 0 = t :: ts := rfl
  have hplain := agrees_parseInputTarget "?" t.position hword
  rw [parseInput, elementAt_eq rfl, pure_bind, elementAt?_eq, pure_bind]
  match ts with
  | [] => exact hplain
  | ⟨symbol, p⟩ :: ts =>
    cases symbol with
    | string s =>
      have htext : (t :: ⟨.string s, p⟩ :: ts).drop 1 = ⟨.string s, p⟩ :: ts := rfl
      refine .expectMore htext (fun hnil => ?_) fun hne => ?_
      · rw [hnil]
        rfl
      obtain ⟨c, rest, rfl⟩ := List.exists_cons_of_ne_nil hne
      rw [elementAt_eq rfl, pure_bind, Statement.readInput]
      by_cases hc : c.symbol = .comma
      · rw [if_pos hc, if_pos hc]
        exact agrees_parseInputTarget s t.position (i := 2) rfl
      · rw [if_neg hc, if_neg hc]
        exact .refuses _
    | _ => exact hplain

/-- Expressions agree, with an arrow or without. -/
private theorem agrees_parseStore (hd : 5 * ts.length + 1 < d) :
    (parseStore d ts).Agrees (· = ·) (Statement.readExpression ts) := by
  rw [parseStore, Statement.readExpression]
  refine ((agreement ts).expression hd).bind ?_
  rintro ⟨e, i⟩ ⟨value, rest, hshorter⟩ hr -
  obtain rfl : e = value := hr.value_eq
  have hdrop : ts.drop i = rest := hr.drop_eq
  simp only [elementAt?_eq, pure_bind]
  cases rest with
  | nil =>
    rw [List.getElem?_eq_none (List.drop_eq_nil_iff.mp hdrop), expectEnd_of_nil hdrop]
    exact .returns rfl
  | cons t rest =>
    rw [getElem?_of_drop hdrop, Option.any_some]
    by_cases hstore : t.symbol = .store
    · simp only [hstore, decide_true, if_true]
      exact agrees_readTarget hdrop fun target => Instruction.expression e (some target)
    · simp only [hstore, decide_false, Bool.false_eq_true, if_false]
      rw [expectEnd_of_drop hdrop]
      exact .refuses _

/-- A statement is read from tokens that are not empty. -/
theorem agrees_parseStatement (t : Token) (ts : List Token)
    (hd : 5 * (t :: ts).length + 1 < d) :
    (parseStatement d (t :: ts)).Agrees (· = ·) (do
      let instruction ← Statement.readInstruction t ts
      return ⟨instruction, t.position⟩) := by
  have hlength : (t :: ts).length = ts.length + 1 := List.length_cons
  have hword (instruction : Instruction) : Run.Agrees (· = ·)
      (do expectEnd (t :: ts) 1; return (⟨instruction, t.position⟩ : Statement))
      (do
        let instruction ← (do Statement.expectEnd ts; return instruction)
        return ⟨instruction, t.position⟩) := by
    rw [bind_assoc]
    exact (agrees_expectEnd rfl).bind fun _ _ _ _ => .returns rfl
  have hcondition (make : Expr → Instruction) : Run.Agrees (· = ·)
      (do return (⟨make (← parseCondition d (t :: ts)), t.position⟩ : Statement))
      (do
        let instruction ← (do return make (← Statement.readCondition t ts))
        return ⟨instruction, t.position⟩) := by
    rw [bind_assoc]
    refine (agrees_parseCondition t (by omega)).bind ?_
    rintro e _ rfl -
    exact .returns rfl
  have hstore : Run.Agrees (· = ·)
      (do return (⟨← parseStore d (t :: ts), t.position⟩ : Statement))
      (do
        let instruction ← Statement.readExpression (t :: ts)
        return ⟨instruction, t.position⟩) := by
    refine (agrees_parseStore hd).bind ?_
    rintro instruction _ rfl -
    exact .returns rfl
  rw [parseStatement, elementAt_eq rfl, pure_bind, Statement.readInstruction]
  cases t.symbol with
  | keyword k =>
    cases k with
    | cond => exact hcondition .cond
    | whileLoop => exact hcondition .whileLoop
    | repeatLoop => exact hcondition .repeatLoop
    | consequent => exact hword .consequent
    | alternative => exact hword .alternative
    | blockEnd => exact hword .blockEnd
    | stop => exact hword .stop
    | ret => exact hword .ret
    | display =>
      have htail : tailFrom (t :: ts) 1 = pure ts := tailFrom_of_drop (i := 0) rfl
      simp only [htail, bind_assoc, pure_bind]
      refine (agrees_parseArguments (by omega)).bind ?_
      rintro es _ rfl -
      exact .returns rfl
    | prompt => exact agrees_parsePrompt t (by omega)
    | input => exact agrees_parseInput t ts
  | program name => exact hword (.call name)
  | _ => exact hstore

private theorem agrees_ofPiece? (t : Token) (ts : List Token) (hd : 5 * (t :: ts).length + 1 < d) :
    (parseStatement d (t :: ts)).Agrees (fun s s? => s? = some s)
      (Statement.ofPiece? (t :: ts)) := by
  have hpiece : Statement.ofPiece? (t :: ts) = (do
      let s ← (do
        let instruction ← Statement.readInstruction t ts
        return (⟨instruction, t.position⟩ : Statement))
      return some s) := by
    rw [bind_assoc]
    rfl
  rw [hpiece]
  refine (agrees_parseStatement t ts hd).map_right ?_
  rintro s _ rfl -
  exact ⟨_, rfl, rfl⟩

/-- The piece that ends at an index is parsed if it is not empty, and what follows is parsed after
it. -/
theorem agrees_piece {start : Nat} (hi : i ≤ ts.length) (hd : 5 * ts.length + 1 < d)
    (ss : List Statement)
    {k : List Statement → Run (List Statement)} {x : Except ParseFault (List Statement)}
    (hk : ∀ ss', (k ss').Agrees (fun a b => a = ss' ++ b) x) :
    Run.Agrees (fun a b => a = ss ++ b)
      (if start < i then do
        let s ← parseStatement d (← slice ts start i)
        k (ss ++ [s])
      else k ss)
      (do
        let s? ← Statement.ofPiece? ((ts.take i).drop start)
        let more ← x
        return s?.toList ++ more) := by
  by_cases hstart : start < i
  · have hne : (ts.take i).drop start ≠ [] := by
      simp
      omega
    obtain ⟨t, us, hpiece⟩ := List.exists_cons_of_ne_nil hne
    have hlength : (t :: us).length ≤ ts.length := by
      rw [← hpiece, List.length_drop, List.length_take]
      omega
    rw [if_pos hstart, slice_eq (Nat.le_of_lt hstart) hi, pure_bind, hpiece]
    refine (agrees_ofPiece? t us (by omega)).bind ?_
    rintro s _ rfl -
    refine (hk (ss ++ [s])).map_right ?_
    rintro a more rfl -
    exact ⟨_, rfl, by simp⟩
  · have hnil : (ts.take i).drop start = [] := by
      simp
      omega
    rw [if_neg hstart, hnil]
    refine (hk ss).map_right ?_
    rintro a more rfl -
    exact ⟨_, rfl, rfl⟩

private theorem parseFrom_of_lt {start : Nat} (h : ts.length < i) (hd : 0 < d)
    (ss : List Statement) : parseFrom d ts ss start i = pure ss := by
  obtain ⟨d, rfl, -⟩ := exists_add_one_of_lt hd
  rw [parseFrom, if_pos h]

/-- The loop over the tokens, where a piece without separators goes from `start` up to `i`. -/
theorem agrees_parseFrom (ss : List Statement) {start : Nat} (hstart : start ≤ i)
    (hi : i ≤ ts.length) (hpiece : ∀ t ∈ (ts.take i).drop start, t.symbol ≠ .separator)
    (hd : 6 * ts.length - i + 2 < d) :
    (parseFrom d ts ss start i).Agrees (fun a b => a = ss ++ b)
      (Statement.ofTokens (ts.drop start)) := by
  induction d generalizing ss start i with
  | zero => cases hd
  | succ d more =>
    have hlength : start ≤ (ts.take i).length := by
      rw [List.length_take]
      omega
    have hsplit : ts.drop start = (ts.take i).drop start ++ ts.drop i := by
      rw [← List.drop_append_of_le_length hlength, List.take_append_drop]
    rw [parseFrom, if_neg (Nat.not_lt.mpr hi), elementAt?_eq, pure_bind]
    cases hdrop : ts.drop i with
    | nil =>
      rw [List.getElem?_eq_none (List.drop_eq_nil_iff.mp hdrop)]
      rw [hsplit, hdrop, List.append_nil, Statement.ofTokens_of_no_separator hpiece]
      refine agrees_piece hi (by omega) ss (k := fun ss => parseFrom d ts ss (i + 1) (i + 1))
        fun ss' => ?_
      rw [parseFrom_of_lt (Nat.lt_succ_of_le (List.drop_eq_nil_iff.mp hdrop)) (by omega)]
      exact .returns (List.append_nil ss').symm
    | cons t rest =>
      have hlt := lt_length_of_drop hdrop
      rw [getElem?_of_drop hdrop, Option.any_some]
      by_cases ht : t.symbol = .separator
      · simp only [ht, ne_eq, not_true_eq_false, decide_false, Bool.false_eq_true, if_false]
        rw [hsplit, hdrop, Statement.ofTokens_append hpiece ht]
        refine agrees_piece hi (by omega) ss (k := fun ss => parseFrom d ts ss (i + 1) (i + 1))
          fun ss' => ?_
        rw [← drop_add_one_of_drop hdrop]
        exact more ss' (Nat.le_refl _) hlt (by simp) (by omega)
      · simp only [ht, ne_eq, not_false_eq_true, decide_true, if_true]
        refine more ss (Nat.le_succ_of_le hstart) hlt (fun u hu => ?_) (by omega)
        rw [List.take_add_one, getElem?_of_drop hdrop, List.drop_append_of_le_length hlength] at hu
        rcases List.mem_append.mp hu with hu | hu
        · exact hpiece u hu
        · rwa [List.mem_singleton.mp hu]

/-- Programs agree. -/
theorem agrees_parse (hd : 6 * ts.length + 2 < d) :
    (parse d ts).Agrees (· = ·) (Statement.ofTokens ts) :=
  agrees_parseFrom [] (Nat.le_refl 0) (Nat.zero_le _) (by simp) hd

/-- What is reported as taken is at least one token and at most all of them. -/
def Within {α : Type} (ts : List Token) (a : α × Nat) : Prop := 1 ≤ a.2 ∧ a.2 ≤ ts.length

private theorem Took.within {α : Type} {rest : List Token} {a : α × Nat} {value : α}
    (h : Took ts a value rest) : Within ts a := ⟨h.pos, h.le⟩

private theorem ends_expectMore (ts : List Token) (i : Nat) :
    (expectMore ts i).Ends fun _ => i < ts.length := by
  by_cases h : i < ts.length
  · rw [expectMore_of_lt h]
    exact .returns h
  · rw [expectMore_of_le (Nat.le_of_not_lt h)]
    exact .refuses _

private theorem exists_joinFrom (tree : Expr) {ops : List Operator} {nodes : List Expr}
    (h : nodes.length = ops.length) : ∃ tree', joinFrom tree ops nodes = pure tree' := by
  induction ops generalizing tree nodes with
  | nil => exact ⟨tree, rfl⟩
  | cons o ops ih =>
    cases nodes with
    | nil => cases h
    | cons x nodes =>
      rw [joinFrom_cons]
      exact ih _ (Nat.succ.inj h)

/-- Operands can be joined if there is one more of them than operators. -/
private theorem exists_join {ops : List Operator} {nodes : List Expr}
    (h : nodes.length = ops.length + 1) : ∃ tree, join ops nodes = pure tree := by
  cases nodes with
  | nil => cases h
  | cons x nodes =>
    rw [join_cons]
    exact exists_joinFrom x (Nat.succ.inj h)

/-- One round of a climb takes at least one token, whatever the operators and the bound are. -/
theorem ends_climb
    (ih : ∀ us, us.length < ts.length → ∀ {d}, 5 * us.length + 1 < d →
      ∀ left o bound, (parseBinary d left o us bound).Ends (Within us))
    {bound : Int} {os : List Operator} {last : Operator} {ns : List Expr} {x : Expr}
    (hnodes : ns.length = os.length + 1) (hpos : 1 ≤ i) (hle : i ≤ ts.length)
    (hd : 5 * (ts.length - i) < d) :
    (climb d ts bound (os ++ [last]) (ns ++ [x]) i).Ends (Within ts) := by
  induction d generalizing os last ns x i with
  | zero => cases hd
  | succ d climbs =>
    have hlength : (ns ++ [x]).length = (os ++ [last]).length + 1 := by simp [hnodes]
    obtain ⟨tree, htree⟩ := exists_join hlength
    rw [climb, elementAt?_eq, pure_bind, htree, pure_bind]
    cases ho : ts[i]?.bind Operator.of? with
    | none => exact .returns ⟨hpos, hle⟩
    | some o =>
      dsimp only
      split
      · exact .returns ⟨hpos, hle⟩
      rw [elementAt_last, pure_bind]
      have hdrop : (ts.drop (i + 1)).length = ts.length - (i + 1) := List.length_drop
      split
      · refine (ends_expectMore ts (i + 1)).bind fun _ hlt => ?_
        rw [tailFrom_eq (Nat.le_of_lt hlt), pure_bind]
        refine (((agreement _).atom (by omega)).ends fun a b h => h.within).bind ?_
        rintro ⟨right, n⟩ ⟨-, (hn : n ≤ _)⟩
        exact climbs hlength (by omega) (by omega) (by omega)
      · refine (ends_expectMore ts (i + 1)).bind fun _ hlt => ?_
        rw [elementAt_last, pure_bind, tailFrom_eq (Nat.le_of_lt hlt), pure_bind]
        refine (ih _ (by omega) (by omega) _ _ _).bind ?_
        rintro ⟨inner, n⟩ ⟨-, (hn : n ≤ _)⟩
        simp only [replaceAt_last, pure_bind]
        exact climbs hnodes (by omega) (by omega) (by omega)

/-- What follows an operator ends inside of its tokens, whatever its bound is. -/
theorem ends_parseBinary (ts : List Token) {d : Nat} (hd : 5 * ts.length + 1 < d) (left : Expr)
    (o : Operator) (bound : Int) : (parseBinary d left o ts bound).Ends (Within ts) := by
  have ih (us : List Token) (_ : us.length < ts.length) {d : Nat} (hd : 5 * us.length + 1 < d)
      (left : Expr) (o : Operator) (bound : Int) :
      (parseBinary d left o us bound).Ends (Within us) := ends_parseBinary us hd left o bound
  cases d with
  | zero => cases hd
  | succ d =>
    rw [parseBinary]
    refine (ends_expectMore ts 0).bind fun _ _ => ?_
    refine (((agreement ts).atom (by omega)).ends fun a b h => h.within).bind ?_
    rintro ⟨right, i⟩ ⟨hpos, hle⟩
    have hnodes : [left].length = ([] : List Operator).length + 1 := rfl
    exact ends_climb ih hnodes hpos hle (by omega)
termination_by ts.length

/-- A statement that reads a value for each of some targets ends inside of its tokens, even without
any. -/
theorem ends_parsePrompt (hd : ts.length < d) : (parsePrompt d ts).Ends fun _ => True := by
  cases ts with
  | nil =>
    obtain ⟨d, rfl, -⟩ := exists_add_one_of_lt hd
    rw [parsePrompt, parseTargetsFrom, parseTarget, expectMore_nil]
    exact .refuses _
  | cons t ts => exact (agrees_parsePrompt t (Nat.lt_of_succ_lt hd)).ends fun _ _ _ => trivial

private theorem not_ends_outside {α : Type} (Q : α → Prop) : ¬ Run.Ends Q (throw .outside) := by
  generalize hr : (throw .outside : Run α) = r
  rintro (_ | _) <;> cases hr

/-- A statement that reads a value has a first token to take its place from exactly if the tokens
are not empty. -/
private theorem ends_parseInput_iff (ts : List Token) :
    ((parseInput ts).Ends fun _ => True) ↔ ts ≠ [] := by
  constructor
  · rintro h rfl
    exact not_ends_outside _ h
  · intro hts
    obtain ⟨word, rest, rfl⟩ := List.exists_cons_of_ne_nil hts
    exact (agrees_parseInput word rest).ends fun _ _ _ => trivial

/-- A depth that is enough for the tokens. -/
def depthFor (ts : List Token) : Nat := 6 * ts.length + 4

/-- On any tokens, balanced or not, every run of the parser ends: at a depth linear in the number of
tokens, and at any larger one, it gives a result or refuses the tokens, and no index of it lies
outside of the list it is used on. An expression, an operand, what follows an operator and delimited
expressions take at least one token and at most all of them, for every operator, bound and closing
symbol. Only a statement that reads a value needs its keyword, which a program always hands on with
it, since empty pieces are dropped. What comes out is what the readers give, and the tokens that are
not counted are those they leave. -/
theorem parser_ends_within (ts : List Token) (k : Nat) :
    let d := depthFor ts + k
    (parseExpression d ts).Ends (Within ts) ∧ (parseAtom d ts).Ends (Within ts) ∧
    (∀ left o bound, (parseBinary d left o ts bound).Ends (Within ts)) ∧
    (∀ closer, (parseDelimited d closer ts).Ends (Within ts)) ∧
    (parseArguments d ts).Ends (fun _ => True) ∧ (parsePrompt d ts).Ends (fun _ => True) ∧
    (((parseInput ts).Ends fun _ => True) ↔ ts ≠ []) ∧ (parse d ts).Ends (fun _ => True) ∧
    Agreement ts ∧ (parseWhole d ts).Agrees (· = ·) (Expr.ofTokens ts) ∧
    (parse d ts).Agrees (· = ·) (Statement.ofTokens ts) := by
  intro d
  have hd : 6 * ts.length + 3 < d := Nat.le_add_right _ k
  have h := agreement ts
  have hparse : (parse d ts).Agrees (· = ·) (Statement.ofTokens ts) := agrees_parse (by omega)
  refine ⟨(h.expression (by omega)).ends fun _ _ => Took.within,
    (h.atom (by omega)).ends fun _ _ => Took.within, ends_parseBinary ts (by omega),
    fun closer => (h.delimited (by omega) closer).ends fun _ _ => Took.within,
    (agrees_parseArguments (by omega)).ends fun _ _ _ => trivial, ends_parsePrompt (by omega),
    ends_parseInput_iff ts, hparse.ends fun _ _ _ => trivial, h, agrees_parseWhole (by omega),
    hparse⟩

/-- Without its keyword, a statement that reads a value is looked for outside of the tokens. -/
theorem parseInput_nil_outside :
    parseInput [] = throw .outside ∧ ¬ ∀ ts : List Token, (parseInput ts).Ends fun _ => True :=
  ⟨rfl, fun h => not_ends_outside _ (h [])⟩

end Handheld.Indexed
