import Handheld.Proofs.Reading
import Handheld.Proofs.Rescan
import Handheld.Proofs.Steps

/-!
# The words of parsed programs

Parsing makes up no names. The functions that a parsed program calls are functions of the language,
and the variables it stores values in are numeric variables and lists with valid names, because that
is all that its tokens can name.
-/

namespace Handheld

namespace Symbol

/-- The symbol names nothing but variables, lists and functions of the language. -/
def Proper : Symbol → Prop
  | var c => Name.isLetter c = true
  | list n => Name.checkList n = .ok ()
  | function f => f ∈ functionNames
  | _ => True

/-- The symbols with a fixed spelling are proper. -/
private theorem proper_of_fixed {s : Symbol} (h : s ∈ fixed) : s.Proper := by
  cases s with
  | var c => exact absurd h (by simp [fixed])
  | list n => exact absurd h (by simp [fixed])
  | function f =>
    have hf : f ∈ functionNames := by simpa [fixed] using h
    exact hf
  | _ => trivial

/-- A symbol that a lexeme denotes is proper, if list names are valid. -/
theorem Denotes.proper {x : List Char} {s : Symbol} (h : Denotes x s)
    (hname : ∀ name, s = .list name → Name.checkList name = .ok ()) : s.Proper := by
  cases h with
  | spelled h => exact proper_of_fixed (mem_fixed_of_mem_spellings h)
  | var h => exact h
  | list | subscripted | lettered | numbered => exact hname _ rfl
  | lineBreak | number | closed | unclosed | program => trivial

end Symbol

/-- All tokens are proper. -/
def Token.AllProper (ts : List Token) : Prop := ∀ t ∈ ts, t.symbol.Proper

/-- The tokens that a program is parsed from are proper. -/
theorem Program.allProper_of_normalizedTokens {text : String} {ts : List Token}
    (h : normalizedTokens text = .ok ts) : Token.AllProper ts := by
  obtain ⟨normal, hnormal, h⟩ := Except.bind_ok h
  obtain ⟨ts₀, out, hscan, hnormalize, rfl⟩ := normalizedText_eq_ok_iff.mp hnormal
  obtain ⟨ts', hscan', hsymbols⟩ :=
    Token.scanFrom_written (readsBack_of_normalize hscan hnormalize) Position.start
  rw [← Token.toList_render_eq_written] at hscan'
  have hts : ts = ts' := by
    unfold Token.scan at h
    rw [hscan'] at h
    exact (Except.ok.inj h).symm
  subst hts
  intro t ht
  obtain ⟨x, hx⟩ := Token.exists_denotes hscan' ht
  refine hx.proper fun name hname => ?_
  refine (Token.normal_of_normalize hnormalize).1.named name ?_
  rw [← hsymbols, ← hname]
  exact List.mem_map_of_mem ht

namespace Tree

/-- A chain calls what its operands call. -/
theorem calls_of_chainTree {P : String → Prop} {e tree : Expr} {links : List Expr.Link}
    (h : Expr.ChainTree e links tree) (he : e.Calls P) (hlinks : ∀ l ∈ links, l.operand.Calls P) :
    tree.Calls P := by
  induction h with
  | single => exact he
  | @split first left right before after l hbefore hafter hleft hright ihleft ihright =>
    have hl : l.operand.Calls P := hlinks l (by simp)
    exact ⟨ihleft he fun k hk => hlinks k (by simp [hk]),
      ihright hl fun k hk => hlinks k (by simp [hk])⟩

/-- Links call the functions that the first operand and their own operands call. -/
private theorem calls_of_foldl_after {P : String → Prop} {e : Expr} {links : List Expr.Link}
    (he : e.Calls P) (hlinks : ∀ l ∈ links, l.operand.Calls P) :
    (links.foldl Expr.Link.after e).Calls P := by
  induction links generalizing e with
  | nil => exact he
  | cons l links ih =>
    obtain ⟨hl, hlinks⟩ := List.forall_mem_cons.mp hlinks
    exact ih ⟨he, hl⟩ hlinks

/-- Trailing operators call no further function. -/
private theorem calls_of_trailed {P : String → Prop} {e e' : Expr} {ts : List Token}
    (h : Expr.Trailed e ts e') (he : e.Calls P) : e'.Calls P := by
  induction h with
  | nil => exact he
  | cons ht hop h ih => exact ih he

/-- A single token calls no function. -/
private theorem calls_of_leaf {P : String → Prop} {t : Token} {e : Expr} (h : Expr.Leaf t e) :
    e.Calls P := by
  cases h <;> trivial

mutual

/-- An expression calls functions that its tokens name. -/
theorem Expression.calls {ts : List Token} {e : Expr} (h : Expression ts e)
    (hts : Token.AllProper ts) : e.Calls (· ∈ Symbol.functionNames) := by
  match h with
  | .chain h hlinks htree =>
    obtain ⟨hleft, hright⟩ := List.forall_mem_append.mp hts
    exact calls_of_chainTree htree (Operand.calls h hleft) (Links.calls hlinks hright)

/-- An operand of proper tokens calls functions of the language only. -/
theorem Operand.calls {negated : Bool} {ts : List Token} {e : Expr} (h : Operand negated ts e)
    (hts : Token.AllProper ts) : e.Calls (· ∈ Symbol.functionNames) := by
  match h with
  | .negation ht h hlinks _ =>
    obtain ⟨hleft, hright⟩ := List.forall_mem_append.mp (List.forall_mem_cons.mp hts).2
    exact calls_of_foldl_after (Operand.calls h hleft) (Links.calls hlinks hright)
  | .trailed h hus =>
    exact calls_of_trailed hus (Primary.calls h (List.forall_mem_append.mp hts).1)

/-- The operands of links of proper tokens call functions of the language only. -/
theorem Links.calls {negated : Bool} {us : List Token} {links : List Expr.Link}
    (h : Links negated us links) (hus : Token.AllProper us) :
    ∀ l ∈ links, l.operand.Calls (· ∈ Symbol.functionNames) := by
  match h with
  | .nil => simp
  | .cons ht _ h hmore =>
    obtain ⟨hleft, hright⟩ := List.forall_mem_append.mp (List.forall_mem_cons.mp hus).2
    exact List.forall_mem_cons.mpr ⟨Operand.calls h hleft, Links.calls hmore hright⟩

/-- A primary of proper tokens calls functions of the language only. -/
theorem Primary.calls {ts : List Token} {e : Expr} (h : Primary ts e) (hts : Token.AllProper ts) :
    e.Calls (· ∈ Symbol.functionNames) := by
  match h with
  | .leaf h => exact calls_of_leaf h
  | .group _ h _ =>
    exact Expression.calls h (List.forall_mem_append.mp (List.forall_mem_cons.mp hts).2).1
  | .list _ h _ =>
    exact Items.calls h (List.forall_mem_append.mp (List.forall_mem_cons.mp hts).2).1
  | .call hl h _ =>
    obtain ⟨hname, hts⟩ := List.forall_mem_cons.mp hts
    rw [hl] at hname
    exact ⟨hname, Items.calls h (List.forall_mem_append.mp hts).1⟩

/-- The items of a list or the arguments of a call, of proper tokens, call functions of the language
only. -/
theorem Items.calls {ts : List Token} {es : List Expr} (h : Items ts es)
    (hts : Token.AllProper ts) : Expr.CallsAll (· ∈ Symbol.functionNames) es := by
  match h with
  | .none => trivial
  | .some h => exact SomeItems.calls h hts

/-- One or more items of proper tokens call functions of the language only. -/
theorem SomeItems.calls {ts : List Token} {es : List Expr} (h : SomeItems ts es)
    (hts : Token.AllProper ts) : Expr.CallsAll (· ∈ Symbol.functionNames) es := by
  match h with
  | .one h => exact ⟨Expression.calls h hts, trivial⟩
  | .more h _ hmore =>
    obtain ⟨hleft, hright⟩ := List.forall_mem_append.mp hts
    exact ⟨Expression.calls h hleft, SomeItems.calls hmore (List.forall_mem_cons.mp hright).2⟩

end

end Tree

/-- An expression of proper tokens calls functions of the language only. -/
theorem Expr.calls_of_ofTokens {ts : List Token} {e : Expr} (h : ofTokens ts = .ok e)
    (hts : Token.AllProper ts) : e.Calls (· ∈ Symbol.functionNames) :=
  (ofTokens_eq_ok_iff_tree.mp h).calls hts

/-- An expression at the front of some tokens calls functions that they name. -/
theorem Expr.calls_of_readChain {blame : Option Token} {ts : List Token} {r : Parsed Expr ts}
    (h : readChain blame ts = .ok r) (hts : Token.AllProper ts) :
    r.value.Calls (· ∈ Symbol.functionNames) ∧ Token.AllProper r.rest := by
  obtain ⟨us, hus, htree⟩ := tree_of_reads_chain ⟨r, h, rfl, rfl⟩
  rw [hus] at hts
  obtain ⟨hleft, hright⟩ := List.forall_mem_append.mp hts
  exact ⟨htree.calls hleft, hright⟩

/-- The target is a numeric variable or a list with a valid name. -/
def Target.Valid : Target → Prop
  | var c => Name.isLetter c = true
  | list n => Name.checkList n = .ok ()

/-- The instruction calls functions of the language only and stores values in variables only. -/
structure Instruction.Proper (i : Instruction) : Prop where
  calls : i.Calls (· ∈ Symbol.functionNames)
  targets : ∀ t ∈ i.targets, t.Valid

namespace Statement

/-- A target that is read from a proper token is valid. -/
private theorem valid_of_targetOf {t : Token} {target : Target} (h : targetOf t = .ok target)
    (ht : t.symbol.Proper) : target.Valid := by
  unfold targetOf at h
  split at h
  · next c hc =>
    cases h
    rwa [hc] at ht
  · next n hn =>
    cases h
    rwa [hn] at ht
  · cases h

/-- The one target of an instruction is valid. -/
private theorem valid_of_readTarget {last : Token} {ts : List Token} {target : Target}
    (h : readTarget last ts = .ok target) (hts : Token.AllProper ts) : target.Valid := by
  cases ts with
  | nil => cases h
  | cons t ts =>
    obtain ⟨target', htarget, h⟩ := Except.bind_ok h
    obtain ⟨-, -, h⟩ := Except.bind_ok h
    cases h
    exact valid_of_targetOf htarget (hts t (List.mem_cons_self ..))

/-- All targets of an instruction are valid. -/
private theorem valid_of_readTargets {last : Token} {ts : List Token} {targets : List Target}
    (h : readTargets last ts = .ok targets) (hts : Token.AllProper ts) :
    ∀ t ∈ targets, t.Valid := by
  fun_induction readTargets last ts generalizing targets with
  | case1 => cases h
  | case2 last t =>
    obtain ⟨target, htarget, h⟩ := Except.bind_ok h
    cases h
    simpa using valid_of_targetOf htarget (hts t (List.mem_cons_self ..))
  | case3 last t c ts ih =>
    obtain ⟨ht, hrest⟩ := List.forall_mem_cons.mp hts
    obtain ⟨target, htarget, h⟩ := Except.bind_ok h
    split at h
    · obtain ⟨more, hmore, h⟩ := Except.bind_ok h
      cases h
      exact List.forall_mem_cons.mpr ⟨valid_of_targetOf htarget ht,
        ih hmore (List.forall_mem_cons.mp hrest).2⟩
    · cases h

/-- A condition calls functions of the language only. -/
private theorem calls_of_readCondition {word : Token} {ts : List Token} {e : Expr}
    (h : readCondition word ts = .ok e) (hts : Token.AllProper ts) :
    e.Calls (· ∈ Symbol.functionNames) := by
  unfold readCondition at h
  split at h
  · cases h
  · exact Expr.calls_of_ofTokens h hts

/-- The arguments of a command call functions of the language only. -/
private theorem calls_of_readArguments {ts : List Token} {es : List Expr}
    (h : readArguments ts = .ok es) (hts : Token.AllProper ts) :
    Expr.CallsAll (· ∈ Symbol.functionNames) es := by
  induction hlength : ts.length using Nat.strongRecOn generalizing ts es with
  | ind length ih =>
    rw [readArguments] at h
    split at h
    · cases h
      trivial
    · obtain ⟨e, he, h⟩ := Except.bind_ok h
      obtain ⟨hcalls, hrest⟩ := Expr.calls_of_readChain he hts
      split at h
      · cases h
        exact ⟨hcalls, trivial⟩
      · next t rest hcons =>
        split at h
        · split at h
          · cases h
          · obtain ⟨more, hmore, h⟩ := Except.bind_ok h
            cases h
            have hshorter := e.rest_shorter hcons
            rw [hcons] at hrest
            exact ⟨hcalls, ih rest.length (by omega) hmore (List.forall_mem_cons.mp hrest).2 rfl⟩
        · cases h

/-- An `Input` of proper tokens is proper. -/
private theorem proper_of_readInput {word : Token} {ts : List Token} {i : Instruction}
    (h : readInput word ts = .ok i) (hts : Token.AllProper ts) : i.Proper := by
  have hinput {text : String} {target : Target} (htarget : target.Valid) :
      (Instruction.input text target).Proper :=
    ⟨trivial, by simpa [Instruction.targets] using htarget⟩
  unfold readInput at h
  split at h
  · next s p rest =>
    split at h
    · cases h
    · next c rest =>
      split at h
      · obtain ⟨target, htarget, h⟩ := Except.bind_ok h
        cases h
        obtain ⟨-, hrest⟩ := List.forall_mem_cons.mp hts
        exact hinput (valid_of_readTarget htarget (List.forall_mem_cons.mp hrest).2)
      · cases h
  · obtain ⟨target, htarget, h⟩ := Except.bind_ok h
    cases h
    exact hinput (valid_of_readTarget htarget hts)

/-- An expression of proper tokens is proper, with the variable that its value is stored in. -/
private theorem proper_of_readExpression {ts : List Token} {i : Instruction}
    (h : readExpression ts = .ok i) (hts : Token.AllProper ts) : i.Proper := by
  obtain ⟨e, he, h⟩ := Except.bind_ok h
  obtain ⟨hcalls, hrest⟩ := Expr.calls_of_readChain he hts
  split at h
  · cases h
    exact ⟨hcalls, by simp [Instruction.targets]⟩
  · next t rest hcons =>
    split at h
    · obtain ⟨target, htarget, h⟩ := Except.bind_ok h
      cases h
      rw [hcons] at hrest
      have hvalid := valid_of_readTarget htarget (List.forall_mem_cons.mp hrest).2
      exact ⟨hcalls, by simpa [Instruction.targets] using hvalid⟩
    · cases h

/-- An instruction that is read from proper tokens is proper. Three kinds have a condition, the
others are a word alone or have operands of their own. -/
private theorem proper_of_readInstruction {t : Token} {ts : List Token} {i : Instruction}
    (h : readInstruction t ts = .ok i) (hts : Token.AllProper (t :: ts)) : i.Proper := by
  have hrest : Token.AllProper ts := (List.forall_mem_cons.mp hts).2
  have hcondition {make : Expr → Instruction}
      (h : (do return make (← readCondition t ts)) = Except.ok i)
      (hmake : ∀ e, e.Calls (· ∈ Symbol.functionNames) → (make e).Proper) : i.Proper := by
    obtain ⟨e, he, h⟩ := Except.bind_ok h
    cases h
    exact hmake e (calls_of_readCondition he hrest)
  have hword {word : Instruction} (h : (do expectEnd ts; return word) = Except.ok i)
      (hproper : word.Proper) : i.Proper := by
    obtain ⟨-, -, h⟩ := Except.bind_ok h
    cases h
    exact hproper
  unfold readInstruction at h
  split at h
  · exact hcondition h fun e he => ⟨he, by simp [Instruction.targets]⟩
  · exact hcondition h fun e he => ⟨he, by simp [Instruction.targets]⟩
  · exact hcondition h fun e he => ⟨he, by simp [Instruction.targets]⟩
  · exact hword h ⟨trivial, by simp [Instruction.targets]⟩
  · exact hword h ⟨trivial, by simp [Instruction.targets]⟩
  · exact hword h ⟨trivial, by simp [Instruction.targets]⟩
  · exact hword h ⟨trivial, by simp [Instruction.targets]⟩
  · exact hword h ⟨trivial, by simp [Instruction.targets]⟩
  · exact hword h ⟨trivial, by simp [Instruction.targets]⟩
  · obtain ⟨es, hes, h⟩ := Except.bind_ok h
    cases h
    exact ⟨calls_of_readArguments hes hrest, by simp [Instruction.targets]⟩
  · obtain ⟨targets, htargets, h⟩ := Except.bind_ok h
    cases h
    exact ⟨trivial, valid_of_readTargets htargets hrest⟩
  · exact proper_of_readInput h hrest
  · exact proper_of_readExpression h hts

/-- The pieces of proper tokens are proper. -/
theorem allProper_of_mem_statements {ts piece : List Token} (hts : Token.AllProper ts)
    (hpiece : piece ∈ Token.statements ts) : Token.AllProper piece := by
  induction ts generalizing piece with
  | nil =>
    cases List.mem_singleton.mp hpiece
    simp [Token.AllProper]
  | cons t ts ih =>
    obtain ⟨ht, hts⟩ := List.forall_mem_cons.mp hts
    obtain ⟨first, others, hstatements, -⟩ := Token.exists_statements ts
    by_cases hseparator : t.symbol = .separator
    · rw [Token.statements_separator hseparator] at hpiece
      rcases List.mem_cons.mp hpiece with rfl | hpiece
      · simp [Token.AllProper]
      · exact ih hts hpiece
    · rw [Token.statements_cons hseparator hstatements] at hpiece
      rcases List.mem_cons.mp hpiece with rfl | hpiece
      · exact List.forall_mem_cons.mpr ⟨ht, ih hts (by rw [hstatements]; simp)⟩
      · exact ih hts (by rw [hstatements]; exact List.mem_cons_of_mem _ hpiece)

/-- The statement of a piece of proper tokens is proper. -/
private theorem proper_of_ofPiece? {piece : List Token} {st : Statement}
    (h : ofPiece? piece = .ok (some st)) (hpiece : Token.AllProper piece) :
    st.instruction.Proper := by
  cases piece with
  | nil => cases h
  | cons t ts =>
    obtain ⟨i, hi, h⟩ := Except.bind_ok h
    cases h
    exact proper_of_readInstruction hi hpiece

/-- All statements that are read before a fault are proper. -/
private theorem proper_of_readPieces {pieces : List (List Token)}
    (hpieces : ∀ piece ∈ pieces, Token.AllProper piece) :
    ∀ st ∈ (readPieces pieces).1, st.instruction.Proper := by
  induction pieces with
  | nil => simp [readPieces]
  | cons piece pieces ih =>
    obtain ⟨hpiece, hpieces⟩ := List.forall_mem_cons.mp hpieces
    unfold readPieces
    split
    · simp
    · next s hs =>
      refine List.forall_mem_append.mpr ⟨fun st hst => ?_, ih hpieces⟩
      rw [Option.mem_toList.mp hst] at hs
      exact proper_of_ofPiece? hs hpiece

end Statement

/-- Every statement of the program is proper. -/
def Program.Proper (p : Program) : Prop := ∀ st ∈ p.statements, st.instruction.Proper

namespace Program

/-- A program that is parsed from a text is proper, whatever the text. -/
theorem proper_of_parse {name source : String} {p : Program} (h : parse name source = .ok p) :
    p.Proper := by
  obtain ⟨ts, hts, h⟩ := Except.bind_ok h
  obtain ⟨ss, hss, h⟩ := Except.bind_ok h
  cases h
  have hproper := Statement.proper_of_readPieces fun piece hpiece =>
    Statement.allProper_of_mem_statements (allProper_of_normalizedTokens hts) hpiece
  have hread := Except.mapError_ok hss
  unfold Statement.ofTokens at hread
  split at hread
  · cases hread
  · next hall =>
    cases hread
    unfold Statement.readAll at hall
    rwa [hall] at hproper

/-- An expression that is parsed from a text calls functions of the language only. -/
theorem calls_of_parseExpression {text : String} {e : Expr} (h : parseExpression text = .ok e) :
    e.Calls (· ∈ Symbol.functionNames) := by
  obtain ⟨ts, hts, h⟩ := Except.bind_ok h
  exact Expr.calls_of_ofTokens (Except.mapError_ok h) (allProper_of_normalizedTokens hts)

end Program

end Handheld
