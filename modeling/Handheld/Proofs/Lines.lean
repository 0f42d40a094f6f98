import Handheld.Proofs.Placeless
import Handheld.Proofs.Rescan

/-!
# Lines are read on their own

A line break ends whatever a line has begun: symbols, strings, brackets and values. So a text is
read, normalized and parsed line by line. Each pass starts afresh behind a line break: the lexer
since no symbol holds one, normalization since a separator closes all brackets and ends no value,
and the parser since it cuts at separators.
-/

namespace Handheld

open Token (symbols)

section Lists

variable {p : Char → Bool} (cs rest : List Char)

/-- What is taken up to a character that fails a test ends before a line break that fails it. -/
private theorem takeWhile_append_line (hp : p '\n' = false) :
    (cs ++ '\n' :: rest).takeWhile p = cs.takeWhile p := by
  induction cs with
  | nil => simp [hp]
  | cons c cs ih => simp only [List.cons_append, List.takeWhile_cons, ih]

/-- A test of the next character is the same with a line break behind that fails it. -/
private theorem any_head?_append_line (hp : p '\n' = false) :
    (cs ++ '\n' :: rest).head?.any p = cs.head?.any p := by
  cases cs with
  | nil => exact hp
  | cons c cs => rfl

end Lists

namespace Numeral

/-- A mantissa ends at a line break. -/
private theorem scanMantissa_append_line (pointed : Bool) (cs rest : List Char) :
    scanMantissa pointed (cs ++ '\n' :: rest) = scanMantissa pointed cs := by
  induction cs generalizing pointed with
  | nil => rfl
  | cons c cs ih =>
    rw [List.cons_append, scanMantissa, scanMantissa, ih, ih]

/-- An exponent ends at a line break. -/
private theorem scanExponent_append_line (cs rest : List Char) :
    scanExponent (cs ++ '\n' :: rest) = scanExponent cs := by
  have hdigits (ds : List Char) :
      (ds ++ '\n' :: rest).takeWhile Name.isDigit = ds.takeWhile Name.isDigit :=
    takeWhile_append_line ds rest rfl
  match cs with
  | [] => rfl
  | [c] =>
    rw [List.singleton_append, scanExponent, scanExponent]
    split
    · rfl
    · rfl
  | c :: s :: ds =>
    have hdigits' := hdigits (s :: ds)
    rw [List.cons_append] at hdigits'
    rw [List.cons_append, List.cons_append, scanExponent, scanExponent]
    simp only [hdigits, hdigits']

/-- A numeral ends at a line break. -/
private theorem scan_append_line (cs rest : List Char) : scan (cs ++ '\n' :: rest) = scan cs := by
  rw [scan, scan, scanMantissa_append_line,
    List.drop_append_of_le_length (prefix_scanMantissa false cs).length_le,
    scanExponent_append_line]

end Numeral

namespace Symbol

/-- A line break ends words. -/
private theorem endsWords_line : EndsWords '\n' := by
  have htails : ∀ sp ∈ spellings, '\n' ∉ sp.1.tail := by decide +kernel
  exact ⟨htails, by decide⟩

/-- A string ends at a line break. -/
private theorem readString_append_line (cs rest : List Char) :
    readString (cs ++ '\n' :: rest) = readString cs := by
  have hcontent : (cs ++ '\n' :: rest).takeWhile (!endsString ·) = cs.takeWhile (!endsString ·) :=
    takeWhile_append_line cs rest rfl
  have hle : (cs.takeWhile (!endsString ·)).length ≤ cs.length :=
    (List.takeWhile_prefix _).length_le
  have hclosed (ds : List Char) :
      ((ds ++ '\n' :: rest).head? == some '"') = (ds.head? == some '"') := by
    cases ds with
    | nil => rfl
    | cons d ds => rfl
  unfold readString
  simp only [hcontent, List.drop_append_of_le_length hle, hclosed]

/-- A number ends at a line break. -/
private theorem readNumber_append_line (cs rest : List Char) :
    readNumber (cs ++ '\n' :: rest) = readNumber cs := by
  rw [readNumber, readNumber, Numeral.scan_append_line]

/-- The name of a list ends at a line break. -/
private theorem listName_append_line (cs rest : List Char) :
    listName (cs ++ '\n' :: rest) = listName cs := by
  cases cs with
  | nil => rfl
  | cons c cs =>
    have hname := takeWhile_append_line (c :: cs) rest (p := Name.isNameChar) rfl
    rw [List.cons_append] at hname
    rw [List.cons_append, listName, listName, hname]

/-- The name of a list of the calculator ends at a line break. -/
private theorem builtinList_append_line (cs rest : List Char) :
    builtinList (cs ++ '\n' :: rest) = builtinList cs := by
  cases cs with
  | nil => rfl
  | cons c cs =>
    have hnext := any_head?_append_line cs rest (p := fun d => Name.isDigit d || d == '.') rfl
    rw [List.cons_append, builtinList, builtinList, hnext]

/-- A word ends at a line break. -/
private theorem readWord_append_line (c : Char) (cs rest : List Char) :
    readWord c (cs ++ '\n' :: rest) = readWord c cs := by
  have hends : ∀ d ∈ ('\n' :: rest).head?, EndsWords d := by
    intro d hd
    cases hd
    exact endsWords_line
  unfold readWord
  rw [programWord_append hends, longestSpelling_append hends]
  by_cases hprogram : programWord.isPrefixOf (c :: cs) = true
  · obtain ⟨tail, -, rfl⟩ := eq_of_programWord hprogram
    have hname : (tail ++ '\n' :: rest).takeWhile Name.isNameChar =
        tail.takeWhile Name.isNameChar := takeWhile_append_line tail rest rfl
    simp only [List.cons_append, List.drop_succ_cons, List.drop_zero, hname]
  · rw [if_neg hprogram, if_neg hprogram]

/-- A symbol is read from its own line. -/
theorem read_append_line (c : Char) (cs rest : List Char) :
    read c (cs ++ '\n' :: rest) = read c cs := by
  have hnumber : startsNumber c (cs ++ '\n' :: rest) = startsNumber c cs := by
    rw [startsNumber, startsNumber, any_head?_append_line cs rest rfl]
  have hread := readNumber_append_line (c :: cs) rest
  rw [List.cons_append] at hread
  rw [read, read, hnumber, readString_append_line, hread, listName_append_line,
    builtinList_append_line, readWord_append_line]

end Symbol

/-- Two computations, one after the other. -/
def inTurn {α β ε : Type} (x : Except ε α) (y : Except ε β) : Except ε (α × β) := do
  let a ← x
  let b ← y
  return (a, b)

/-- Both computations give a result. -/
private theorem inTurn_eq_ok_iff {α β ε : Type} {x : Except ε α} {y : Except ε β} {a : α} {b : β} :
    inTurn x y = .ok (a, b) ↔ x = .ok a ∧ y = .ok b := by
  cases x with
  | error e => simp [inTurn, bind, Except.bind]
  | ok a' =>
    cases y with
    | error e => simp [inTurn, bind, Except.bind]
    | ok b' => simp [inTurn, bind, Except.bind, pure, Except.pure]

/-- Computations that are alike stay so one after the other. -/
private theorem Alike.inTurn {α α' β β' δ ε : Type} {r : α → α' → Prop} {r' : β → β' → Prop}
    {x : Except δ α} {y : Except δ β} {x' : Except ε α'} {y' : Except ε β'} (hx : Alike r x x')
    (hy : Alike r' y y') :
    Alike (fun parts parts' => r parts.1 parts'.1 ∧ r' parts.2 parts'.2) (inTurn x y)
      (inTurn x' y') :=
  hx.bind fun _ _ ha => hy.bind fun _ _ hb => ⟨ha, hb⟩

/-- What is made of the first result can be made of it afterwards. -/
theorem inTurn_map {α α' β ε : Type} (x : Except ε α) (y : Except ε β) (f : α → α') :
    inTurn (do let a ← x; return f a) y = do
      let parts ← inTurn x y
      return (f parts.1, parts.2) := by
  cases x with
  | error e => rfl
  | ok a => cases y <;> rfl

namespace Token

/-- The tokens have the same symbols. -/
abbrev SameSymbols (ts ts' : List Token) : Prop := symbols ts' = symbols ts

/-- The tokens have the symbols of two lines, with a separator between them. -/
abbrev TwoLines (ts : List Token) (lines : List Token × List Token) : Prop :=
  symbols ts = symbols lines.1 ++ .separator :: symbols lines.2

/-- A blank moves the place. -/
private theorem scanFrom_space {c : Char} (hc : isSpace c = true) (p : Position) (cs : List Char) :
    scanFrom p (c :: cs) = scanFrom (p.right 1) cs := by
  rw [scanFrom, if_pos hc]

/-- A symbol that cannot be read is a fault at its place. -/
theorem scanFrom_error {c : Char} {cs : List Char} {cause : LexCause} (hc : ¬ isSpace c = true)
    (hread : Symbol.read c cs = .error cause) (p : Position) :
    scanFrom p (c :: cs) = .error ⟨cause, p⟩ := by
  rw [scanFrom, if_neg hc, hread]

/-- Where a text stands has no influence on its symbols. -/
theorem alike_scanFrom (p q : Position) (cs : List Char) :
    Alike SameSymbols (scanFrom p cs) (scanFrom q cs) := by
  induction hlength : cs.length using Nat.strongRecOn generalizing p q cs with
  | ind length ih =>
    cases cs with
    | nil =>
      rw [scanFrom, scanFrom]
      rfl
    | cons c cs =>
      rw [List.length_cons] at hlength
      by_cases hc : isSpace c = true
      · rw [scanFrom_space hc, scanFrom_space hc]
        exact ih cs.length (by omega) _ _ cs rfl
      · cases hread : Symbol.read c cs with
        | error cause =>
          rw [scanFrom_error hc hread, scanFrom_error hc hread]
          trivial
        | ok result =>
          obtain ⟨s, n⟩ := result
          have hshorter : (cs.drop n).length < length := by
            rw [List.length_drop]
            omega
          rw [scanFrom_symbol hc hread p, scanFrom_symbol hc hread q]
          refine (ih _ hshorter _ _ _ rfl).bind fun ts ts' hts => ?_
          exact congrArg (s :: ·) hts

/-- A text is read line by line. -/
theorem alike_scanFrom_line (p q r : Position) (cs rest : List Char) :
    Alike TwoLines (scanFrom p (cs ++ '\n' :: rest)) (inTurn (scanFrom q cs) (scanFrom r rest)) := by
  induction hlength : cs.length using Nat.strongRecOn generalizing p q cs with
  | ind length ih =>
    cases cs with
    | nil =>
      have hread : Symbol.read '\n' rest = .ok (.separator, 0) := rfl
      rw [List.nil_append, scanFrom_symbol (by decide) hread p, scanFrom]
      refine (alike_scanFrom _ r rest).bind fun ts vs hvs => ?_
      exact congrArg (Symbol.separator :: ·) hvs.symm
    | cons c cs =>
      rw [List.length_cons] at hlength
      rw [List.cons_append]
      by_cases hc : isSpace c = true
      · rw [scanFrom_space hc, scanFrom_space hc]
        exact ih cs.length (by omega) _ _ cs rfl
      · have hline := Symbol.read_append_line c cs rest
        cases hread : Symbol.read c cs with
        | error cause =>
          rw [scanFrom_error hc (hline.trans hread), scanFrom_error hc hread]
          trivial
        | ok result =>
          obtain ⟨s, n⟩ := result
          have hshorter : (cs.drop n).length < length := by
            rw [List.length_drop]
            omega
          rw [scanFrom_symbol hc (hline.trans hread), scanFrom_symbol hc hread, inTurn_map,
            List.drop_append_of_le_length (Symbol.length_le_of_read hread)]
          exact (ih _ hshorter _ _ _ rfl).bind fun ts lines hts => congrArg (s :: ·) hts

/-- A bracket that does not fit is a fault at its token. -/
private theorem normalizeFrom_error {last : Option Token} {opened : List Bracket} {t : Token}
    {cause : NormalCause} (hb : bracketing opened t.symbol = .error cause) (ts : List Token) :
    normalizeFrom last opened (t :: ts) = .error ⟨cause, t⟩ := by
  rw [normalizeFrom, hb]

/-- Before a token stand the product and the closers that are understood there. -/
private theorem normalizeFrom_cons {last : Option Token} {opened closed opened' : List Bracket}
    {t : Token} (hb : bracketing opened t.symbol = .ok (closed, opened')) (ts : List Token) :
    normalizeFrom last opened (t :: ts) = do
      let rest ← normalizeFrom (some t) opened' ts
      return productBefore last t ++ closers closed t.position ++ t :: rest := by
  rw [normalizeFrom, hb]
  dsimp only
  cases normalizeFrom (some t) opened' ts <;> rfl

/-- The product that is understood depends on the symbols only. -/
private theorem productBefore_of_symbols {last last' : Option Token} {t t' : Token}
    (hlast : last'.map (·.symbol) = last.map (·.symbol)) (ht : t'.symbol = t.symbol) :
    symbols (productBefore last' t') = symbols (productBefore last t) := by
  have hany : last'.any (impliesProduct ·.symbol t'.symbol) =
      last.any (impliesProduct ·.symbol t.symbol) := by
    have hmap (l : Option Token) : l.any (impliesProduct ·.symbol t.symbol) =
        (l.map (·.symbol)).any (impliesProduct · t.symbol) := by cases l <;> rfl
    rw [ht, hmap, hmap, hlast]
  unfold productBefore
  rw [hany]
  split <;> rfl

/-- Where tokens stand has no influence on the symbols of their normal form. -/
theorem alike_normalizeFrom {last last' : Option Token} {ts ts' : List Token}
    (hlast : last'.map (·.symbol) = last.map (·.symbol)) (hts : symbols ts' = symbols ts)
    (opened : List Bracket) :
    Alike SameSymbols (normalizeFrom last opened ts) (normalizeFrom last' opened ts') := by
  induction ts generalizing last last' opened ts' with
  | nil =>
    cases List.map_eq_nil_iff.mp hts
    cases last with
    | none =>
      cases Option.map_eq_none_iff.mp hlast
      rfl
    | some l =>
      obtain ⟨l', rfl, -⟩ := Option.map_eq_some_iff.mp hlast
      change symbols (closers opened l'.position) = symbols (closers opened l.position)
      rw [symbols_closers, symbols_closers]
  | cons t ts ih =>
    rcases symbols_cases hts with ⟨h, -⟩ | ⟨t, us, t', ts', hcons, rfl, ht, hus⟩
    · cases h
    · cases hcons
      cases hb : bracketing opened t.symbol with
      | error cause =>
        rw [normalizeFrom_error hb, normalizeFrom_error (ht ▸ hb)]
        trivial
      | ok result =>
        obtain ⟨closed, opened'⟩ := result
        rw [normalizeFrom_cons hb, normalizeFrom_cons (ht ▸ hb)]
        have hnext : (some t').map (·.symbol) = (some t).map (·.symbol) := congrArg some ht
        refine (ih hnext hus opened').bind fun rest rest' hrest => ?_
        change symbols _ = symbols _
        simp only [symbols_append, symbols_cons, symbols_closers, productBefore_of_symbols hlast ht, ht,
          hrest]

/-- Nothing reaches across a separator. -/
theorem normalizeFrom_separator {t : Token} (ht : t.symbol = .separator) (ts : List Token) :
    normalizeFrom (some t) [] ts = normalizeFrom none [] ts := by
  cases ts with
  | nil => rfl
  | cons u ts =>
    have hproduct : productBefore (some t) u = productBefore none u := by
      have hvalue : impliesProduct t.symbol u.symbol = false := by
        rw [ht]
        rfl
      unfold productBefore
      rw [Option.any_some, hvalue]
      rfl
    cases hb : bracketing [] u.symbol with
    | error cause => rw [normalizeFrom_error hb, normalizeFrom_error hb]
    | ok result => rw [normalizeFrom_cons hb, normalizeFrom_cons hb, hproduct]

/-- Tokens are normalized from separator to separator: brackets are closed before a separator as
they are at the end of the tokens. -/
theorem alike_normalizeFrom_line {last : Option Token} {opened : List Bracket} {t : Token}
    (ht : t.symbol = .separator) (hlast : last = none → opened = []) (ts us : List Token) :
    Alike TwoLines (normalizeFrom last opened (ts ++ t :: us))
      (inTurn (normalizeFrom last opened ts) (normalizeFrom none [] us)) := by
  induction ts generalizing last opened with
  | nil =>
    have hb : bracketing opened t.symbol = .ok (opened, []) := by rw [ht]; rfl
    have hproduct : productBefore last t = [] := productBefore_of_not_starts (by rw [ht]; rfl)
    obtain ⟨ends, hends, hsymbols⟩ : ∃ ends, normalizeFrom last opened [] = .ok ends ∧
        symbols ends = opened.map Bracket.closer := by
      cases last with
      | none =>
        cases hlast rfl
        exact ⟨[], rfl, rfl⟩
      | some l => exact ⟨_, rfl, symbols_closers opened l.position⟩
    rw [List.nil_append, normalizeFrom_cons hb, normalizeFrom_separator ht, hends, hproduct]
    cases normalizeFrom none [] us with
    | error f => trivial
    | ok rest =>
      change symbols ([] ++ closers opened t.position ++ t :: rest) = _
      rw [List.nil_append, symbols_append, symbols_cons, symbols_closers, hsymbols, ht]
  | cons u ts ih =>
    rw [List.cons_append]
    cases hb : bracketing opened u.symbol with
    | error cause =>
      rw [normalizeFrom_error hb, normalizeFrom_error hb]
      trivial
    | ok result =>
      obtain ⟨closed, opened'⟩ := result
      have hrest : Alike TwoLines (normalizeFrom (some u) opened' (ts ++ t :: us))
          (inTurn (normalizeFrom (some u) opened' ts) (normalizeFrom none [] us)) := ih (by simp)
      rw [normalizeFrom_cons hb, normalizeFrom_cons hb, inTurn_map]
      refine hrest.bind fun out lines hout => ?_
      change symbols (_ ++ u :: out) = symbols (_ ++ u :: lines.1) ++ _
      simp only [symbols_append, symbols_cons, hout, List.append_assoc, List.cons_append]

/-- Tokens with the symbols of two lines begin with those of the first line. -/
theorem TwoLines.exists_append {ts us vs : List Token} (h : TwoLines ts (us, vs)) :
    ∃ us' t vs', ts = us' ++ t :: vs' ∧ symbols us' = symbols us ∧ t.symbol = .separator ∧
      symbols vs' = symbols vs := by
  obtain ⟨us', ts', rfl, hus, hts'⟩ := List.map_eq_append_iff.mp h
  obtain ⟨t, vs', rfl, ht, hvs⟩ := List.map_eq_cons_iff.mp hts'
  exact ⟨us', t, vs', rfl, hus, ht, hvs⟩

/-- The tokens of two lines are normalized line by line. -/
theorem alike_normalize_line {ts us vs : List Token} (h : TwoLines ts (us, vs)) :
    Alike TwoLines (normalize ts) (inTurn (normalize us) (normalize vs)) := by
  obtain ⟨us', t, vs', rfl, hus, ht, hvs⟩ := h.exists_append
  have hline : Alike TwoLines (normalize (us' ++ t :: vs')) (inTurn (normalize us') (normalize vs')) :=
    alike_normalizeFrom_line ht (fun _ => rfl) us' vs'
  have hleft : Alike SameSymbols (normalize us') (normalize us) :=
    alike_normalizeFrom rfl hus.symm []
  have hright : Alike SameSymbols (normalize vs') (normalize vs) :=
    alike_normalizeFrom rfl hvs.symm []
  refine hline.trans (hleft.inTurn hright) fun out lines lines' hout hlines => ?_
  rw [TwoLines, hout, hlines.1, hlines.2]

/-- Lines are written one after the other, with a colon between them. -/
theorem written_append (ss ss' : List Symbol) :
    written (ss ++ .separator :: ss') = written ss ++ ':' :: written ss' := by
  induction ss with
  | nil =>
    rw [List.nil_append, written.eq_def]
    dsimp only
    rw [blankBetween_separator]
    rfl
  | cons s ss ih =>
    have hblank : blankBetween s (ss ++ .separator :: ss') = blankBetween s ss := by
      cases ss with
      | nil => simp [blankBetween]
      | cons s' ss => rfl
    rw [List.cons_append, written, written, hblank, ih, List.append_assoc, List.append_assoc]

/-- The statements on both sides of a separator are separate. -/
theorem statements_append {t : Token} (ht : t.symbol = .separator) (us vs : List Token) :
    statements (us ++ t :: vs) = statements us ++ statements vs := by
  induction us with
  | nil => exact statements_separator ht vs
  | cons u us ih =>
    rw [List.cons_append]
    by_cases hu : u.symbol = .separator
    · rw [statements_separator hu, statements_separator hu, ih, List.cons_append]
    · obtain ⟨piece, pieces, hus, -⟩ := exists_statements us
      rw [hus, List.cons_append] at ih
      rw [statements_cons hu ih, statements_cons hu hus, List.cons_append]

/-- The symbols of the statements depend on the symbols only. -/
theorem map_symbols_statements {ts ts' : List Token} (hts : symbols ts' = symbols ts) :
    (statements ts').map symbols = (statements ts).map symbols := by
  induction ts generalizing ts' with
  | nil =>
    cases List.map_eq_nil_iff.mp hts
    rfl
  | cons t ts ih =>
    rcases symbols_cases hts with ⟨h, -⟩ | ⟨t, us, t', us', hcons, rfl, ht, hus⟩
    · cases h
    · cases hcons
      have ih := ih hus
      by_cases hsep : t.symbol = .separator
      · rw [statements_separator hsep, statements_separator (ht.trans hsep), List.map_cons,
          List.map_cons, ih]
      · have hsep' : t'.symbol ≠ .separator := ht ▸ hsep
        obtain ⟨piece, pieces, hpieces, -⟩ := exists_statements ts
        obtain ⟨piece', pieces', hpieces', -⟩ := exists_statements us'
        rw [hpieces, hpieces'] at ih
        obtain ⟨hpiece, htail⟩ := List.cons.inj ih
        rw [statements_cons hsep hpieces, statements_cons hsep' hpieces', List.map_cons,
          List.map_cons, symbols_cons, symbols_cons, hpiece, htail, ht]

end Token

/-- The statements of tokens depend on places only in their places. -/
theorem Statement.alike_ofTokens {ts ts' : List Token} (hts : symbols ts' = symbols ts) :
    Alike SameStatements (ofTokens ts) (ofTokens ts') := by
  rw [ofTokens_eq_ofPieces, ofTokens_eq_ofPieces]
  exact alike_ofPieces (Token.map_symbols_statements hts)

/-- The statements differ in places only from those of two lines. -/
abbrev Statement.TwoLines (ss : List Statement)
    (lines : List Statement × List Statement) : Prop :=
  ss.map unplaced = lines.1.map unplaced ++ lines.2.map unplaced

/-- Two lines have the statements of the first and then those of the second. -/
theorem Statement.alike_ofTokens_line {ts us vs : List Token} (h : Token.TwoLines ts (us, vs)) :
    Alike TwoLines (ofTokens ts) (inTurn (ofTokens us) (ofTokens vs)) := by
  obtain ⟨us', t, vs', rfl, hus, ht, hvs⟩ := h.exists_append
  have hsplit : ofTokens (us' ++ t :: vs') = do
      let lines ← inTurn (ofTokens us') (ofTokens vs')
      return lines.1 ++ lines.2 := by
    rw [ofTokens_eq_ofPieces, Token.statements_append ht, ofPieces_append, ofTokens_eq_ofPieces,
      ofTokens_eq_ofPieces]
    cases ofPieces (Token.statements us') with
    | error f => rfl
    | ok ss => cases ofPieces (Token.statements vs') <;> rfl
  have hlines : Alike (fun lines lines' => SameStatements lines.1 lines'.1 ∧
      SameStatements lines.2 lines'.2) (inTurn (ofTokens us') (ofTokens vs'))
      (inTurn (ofTokens us) (ofTokens vs)) :=
    (alike_ofTokens hus.symm).inTurn (alike_ofTokens hvs.symm)
  rw [hsplit, ← bind_pure (inTurn (ofTokens us) (ofTokens vs))]
  refine hlines.bind fun lines lines' hsame => ?_
  change (lines.1 ++ lines.2).map unplaced = _
  rw [List.map_append, hsame.1, hsame.2]

namespace Program

/-- Two lines are read as the tokens of the first, a separator and the tokens of the second. -/
theorem alike_scan_line (a b : String) :
    Alike Token.TwoLines (Token.scan (a ++ "\n" ++ b)) (inTurn (Token.scan a) (Token.scan b)) := by
  have hchars : (a ++ "\n" ++ b).toList = a.toList ++ '\n' :: b.toList := by
    rw [String.toList_append, String.toList_append, List.append_assoc]
    rfl
  rw [Token.scan, hchars]
  exact Token.alike_scanFrom_line .start .start .start a.toList b.toList

/-- The text can be read, and `out` is the normal form of its tokens. -/
def Normalizes (text : String) (out : List Token) : Prop :=
  ∃ ts, Token.scan text = .ok ts ∧ Token.normalize ts = .ok out

/-- The normalized text is that of the normal form. -/
private theorem normalizedText_eq_ok_iff_normalizes {text normal : String} :
    normalizedText text = .ok normal ↔ ∃ out, Normalizes text out ∧ Token.render out = normal := by
  rw [normalizedText_eq_ok_iff]
  constructor
  · rintro ⟨ts, out, hscan, hnormal, hrender⟩
    exact ⟨out, ⟨ts, hscan, hnormal⟩, hrender⟩
  · rintro ⟨out, ⟨ts, hscan, hnormal⟩, hrender⟩
    exact ⟨ts, out, hscan, hnormal, hrender⟩

/-- The normal form of two lines is made of those of the lines. -/
private theorem Normalizes.exists_lines {a b : String} {out : List Token}
    (h : Normalizes (a ++ "\n" ++ b) out) :
    ∃ out₁ out₂, Normalizes a out₁ ∧ Normalizes b out₂ ∧ Token.TwoLines out (out₁, out₂) := by
  obtain ⟨ts, hscan, hnormal⟩ := h
  obtain ⟨⟨us, vs⟩, hlines, hts⟩ := (alike_scan_line a b).exists_right hscan
  obtain ⟨hus, hvs⟩ := inTurn_eq_ok_iff.mp hlines
  obtain ⟨⟨out₁, out₂⟩, hlines', hout⟩ := (Token.alike_normalize_line hts).exists_right hnormal
  obtain ⟨hout₁, hout₂⟩ := inTurn_eq_ok_iff.mp hlines'
  exact ⟨out₁, out₂, ⟨us, hus, hout₁⟩, ⟨vs, hvs, hout₂⟩, hout⟩

/-- Lines with normal forms have a normal form together. -/
private theorem Normalizes.exists_join {a b : String} {out₁ out₂ : List Token}
    (ha : Normalizes a out₁) (hb : Normalizes b out₂) :
    ∃ out, Normalizes (a ++ "\n" ++ b) out ∧ Token.TwoLines out (out₁, out₂) := by
  obtain ⟨us, hus, hout₁⟩ := ha
  obtain ⟨vs, hvs, hout₂⟩ := hb
  obtain ⟨ts, hscan, hts⟩ := (alike_scan_line a b).exists_left (inTurn_eq_ok_iff.mpr ⟨hus, hvs⟩)
  obtain ⟨out, hnormal, hout⟩ :=
    (Token.alike_normalize_line hts).exists_left (inTurn_eq_ok_iff.mpr ⟨hout₁, hout₂⟩)
  exact ⟨out, ⟨ts, hscan, hnormal⟩, hout⟩

/-- Two lines are written with a colon between them. -/
private theorem render_of_twoLines {out out₁ out₂ : List Token}
    (h : Token.TwoLines out (out₁, out₂)) :
    Token.render out = Token.render out₁ ++ ":" ++ Token.render out₂ := by
  apply String.toList_injective
  rw [String.toList_append, String.toList_append, Token.toList_render_eq_written, h,
    Token.written_append, Token.toList_render_eq_written, Token.toList_render_eq_written,
    List.append_assoc]
  rfl

/-- The tokens of a normalized text are the symbols that normalization gave, where they are
written. -/
theorem Normalizes.normalizedTokens_eq {text : String} {out : List Token} (h : Normalizes text out) :
    normalizedTokens text = .ok (Token.placed .start (symbols out)) := by
  obtain ⟨ts, hscan, hnormal⟩ := h
  have hscan' :=
    Token.scanFrom_written_placed (readsBack_of_normalize hscan hnormal) Position.start
  rw [← Token.toList_render_eq_written] at hscan'
  have htext : normalizedText text = .ok (Token.render out) :=
    normalizedText_eq_ok_iff.mpr ⟨ts, out, hscan, hnormal, rfl⟩
  unfold normalizedTokens
  rw [htext]
  exact congrArg (Except.mapError Fault.lex) hscan'

/-- The tokens of the normalized text have the symbols of the normal form. -/
private theorem Normalizes.exists_tokens {text : String} {out : List Token}
    (h : Normalizes text out) : ∃ ts, normalizedTokens text = .ok ts ∧ symbols ts = symbols out :=
  ⟨_, h.normalizedTokens_eq, Token.symbols_placed .start (symbols out)⟩

/-- Tokens of a normalized text come from a normal form with the same symbols. -/
theorem exists_normalizes {text : String} {ts : List Token} (h : normalizedTokens text = .ok ts) :
    ∃ out, Normalizes text out ∧ symbols ts = symbols out := by
  have hparts := h
  unfold normalizedTokens at hparts
  obtain ⟨normal, htext, -⟩ := Except.bind_ok hparts
  obtain ⟨out, hout, -⟩ := normalizedText_eq_ok_iff_normalizes.mp htext
  obtain ⟨ts', hts', hsymbols⟩ := hout.exists_tokens
  rw [h] at hts'
  cases hts'
  exact ⟨out, hout, hsymbols⟩

/-- Two lines are normalized and read again line by line. -/
private theorem alike_normalizedTokens_line (a b : String) :
    Alike Token.TwoLines (normalizedTokens (a ++ "\n" ++ b))
      (inTurn (normalizedTokens a) (normalizedTokens b)) := by
  refine .of_exists (fun ts hts => ?_) ?_
  · obtain ⟨out, hout, hsymbols⟩ := exists_normalizes hts
    obtain ⟨out₁, out₂, hout₁, hout₂, hlines⟩ := hout.exists_lines
    obtain ⟨us, hus, hsymbols₁⟩ := hout₁.exists_tokens
    obtain ⟨vs, hvs, hsymbols₂⟩ := hout₂.exists_tokens
    refine ⟨(us, vs), inTurn_eq_ok_iff.mpr ⟨hus, hvs⟩, ?_⟩
    rw [Token.TwoLines, hsymbols, hlines, hsymbols₁, hsymbols₂]
  · rintro ⟨us, vs⟩ hlines
    obtain ⟨hus, hvs⟩ := inTurn_eq_ok_iff.mp hlines
    obtain ⟨out₁, hout₁, -⟩ := exists_normalizes hus
    obtain ⟨out₂, hout₂, -⟩ := exists_normalizes hvs
    obtain ⟨out, hout, -⟩ := hout₁.exists_join hout₂
    obtain ⟨ts, hts, -⟩ := hout.exists_tokens
    exact ⟨ts, hts⟩

/-- A text is parsed if its normalized tokens form statements. -/
theorem parse_eq_ok_iff {name source : String} {p : Program} :
    parse name source = .ok p ↔ ∃ ts ss, normalizedTokens source = .ok ts ∧
      Statement.ofTokens ts = .ok ss ∧ p = ⟨name, source, ss⟩ := by
  unfold parse
  constructor
  · intro h
    obtain ⟨ts, hts, h⟩ := Except.bind_ok h
    obtain ⟨ss, hss, h⟩ := Except.bind_ok h
    cases h
    exact ⟨ts, ss, hts, Except.mapError_ok hss, rfl⟩
  · rintro ⟨ts, ss, hts, hss, rfl⟩
    rw [hts]
    simp only [bind, Except.bind]
    rw [hss]
    rfl

/-- A text of two lines is read, normalized and parsed as each line on its own. Reading succeeds if
and only if it does on both lines, and gives the symbols of both with a separator between them, so
that no string and no part of a symbol goes on behind the line break. Normalization gives the two
normalized texts with a colon between them, so that neither brackets nor values do. Parsing gives
the statements of the one line and then those of the other, up to the places where they stand. -/
theorem parse_line_by_line (name a b : String) :
    (∀ ss, (∃ ts, Token.scan (a ++ "\n" ++ b) = .ok ts ∧ symbols ts = ss) ↔
      ∃ us vs, Token.scan a = .ok us ∧ Token.scan b = .ok vs ∧
        ss = symbols us ++ .separator :: symbols vs) ∧
    (∀ t, normalizedText (a ++ "\n" ++ b) = .ok t ↔
      ∃ s s', normalizedText a = .ok s ∧ normalizedText b = .ok s' ∧ t = s ++ ":" ++ s') ∧
    (∀ ss, (∃ p, parse name (a ++ "\n" ++ b) = .ok p ∧ p.statements.map Statement.unplaced = ss) ↔
      ∃ p q, parse name a = .ok p ∧ parse name b = .ok q ∧
        ss = p.statements.map Statement.unplaced ++ q.statements.map Statement.unplaced) := by
  refine ⟨fun ss => ?_, fun t => ?_, fun ss => ?_⟩
  · constructor
    · rintro ⟨ts, hts, rfl⟩
      obtain ⟨⟨us, vs⟩, hlines, hsymbols⟩ := (alike_scan_line a b).exists_right hts
      obtain ⟨hus, hvs⟩ := inTurn_eq_ok_iff.mp hlines
      exact ⟨us, vs, hus, hvs, hsymbols⟩
    · rintro ⟨us, vs, hus, hvs, rfl⟩
      exact (alike_scan_line a b).exists_left (inTurn_eq_ok_iff.mpr ⟨hus, hvs⟩)
  · simp only [normalizedText_eq_ok_iff_normalizes]
    constructor
    · rintro ⟨out, hout, rfl⟩
      obtain ⟨out₁, out₂, hout₁, hout₂, hlines⟩ := hout.exists_lines
      exact ⟨_, _, ⟨out₁, hout₁, rfl⟩, ⟨out₂, hout₂, rfl⟩, render_of_twoLines hlines⟩
    · rintro ⟨_, _, ⟨out₁, hout₁, rfl⟩, ⟨out₂, hout₂, rfl⟩, rfl⟩
      obtain ⟨out, hout, hlines⟩ := hout₁.exists_join hout₂
      exact ⟨out, hout, render_of_twoLines hlines⟩
  · simp only [parse_eq_ok_iff]
    constructor
    · rintro ⟨p, ⟨ts, ss, hts, hss, rfl⟩, rfl⟩
      obtain ⟨⟨us, vs⟩, hlines, hsymbols⟩ := (alike_normalizedTokens_line a b).exists_right hts
      obtain ⟨hus, hvs⟩ := inTurn_eq_ok_iff.mp hlines
      obtain ⟨⟨ss₁, ss₂⟩, hlines', hsame⟩ :=
        (Statement.alike_ofTokens_line hsymbols).exists_right hss
      obtain ⟨hss₁, hss₂⟩ := inTurn_eq_ok_iff.mp hlines'
      exact ⟨_, _, ⟨us, ss₁, hus, hss₁, rfl⟩, ⟨vs, ss₂, hvs, hss₂, rfl⟩, hsame⟩
    · rintro ⟨_, _, ⟨us, ss₁, hus, hss₁, rfl⟩, ⟨vs, ss₂, hvs, hss₂, rfl⟩, rfl⟩
      obtain ⟨ts, hts, hsymbols⟩ :=
        (alike_normalizedTokens_line a b).exists_left (inTurn_eq_ok_iff.mpr ⟨hus, hvs⟩)
      obtain ⟨ss, hss, hsame⟩ :=
        (Statement.alike_ofTokens_line hsymbols).exists_left (inTurn_eq_ok_iff.mpr ⟨hss₁, hss₂⟩)
      exact ⟨_, ⟨ts, ss, hts, hss, rfl⟩, hsame⟩

end Program

end Handheld
