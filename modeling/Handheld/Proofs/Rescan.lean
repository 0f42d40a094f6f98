import Handheld.Program
import Handheld.Proofs.Normalization
import Handheld.Proofs.Denotation

/-!
# Reading normalized text

The text of a normalized program is read as the very symbols it was written from. A normal list is
its own normal form, so normalizing such a text gives the text back.
-/

namespace Handheld

namespace Token

/-- Between two symbols of a statement stands a blank. -/
def blankBetween (s : Symbol) : List Symbol → List Char
  | [] => []
  | s' :: _ => if s = .separator ∨ s' = .separator then [] else [' ']

/-- The characters that symbols are written with. -/
def written : List Symbol → List Char
  | [] => []
  | s :: ss => s.text.toList ++ (blankBetween s ss ++ written ss)

/-- A separator ends a statement. -/
theorem statements_separator {t : Token} (ht : t.symbol = .separator) (ts : List Token) :
    statements (t :: ts) = [] :: statements ts := by
  rw [statements, if_pos ht]

/-- Any other token belongs to the first statement. -/
theorem statements_cons {t : Token} (ht : t.symbol ≠ .separator) {ts piece : List Token}
    {pieces : List (List Token)} (h : statements ts = piece :: pieces) :
    statements (t :: ts) = (t :: piece) :: pieces := by
  rw [statements, if_neg ht, h]

/-- There is a first statement, and it is empty where a separator or nothing comes first. -/
theorem exists_statements (ts : List Token) :
    ∃ piece pieces, statements ts = piece :: pieces ∧
      (piece = [] ↔ ∀ t ∈ ts.head?, t.symbol = .separator) := by
  induction ts with
  | nil => exact ⟨[], [], rfl, by simp⟩
  | cons t ts ih =>
    obtain ⟨piece, pieces, hts, -⟩ := ih
    by_cases ht : t.symbol = .separator
    · exact ⟨[], _, statements_separator ht ts, by simpa using ht⟩
    · exact ⟨t :: piece, pieces, statements_cons ht hts, by simpa using ht⟩

/-- The characters of a statement. -/
def pieceChars (piece : List Token) : List Char :=
  [' '].intercalate (piece.map (·.symbol.text.toList))

/-- The text of tokens is that of their statements, with colons between them. -/
private theorem toList_render (ts : List Token) :
    (render ts).toList = [':'].intercalate ((statements ts).map pieceChars) := by
  have hpiece (piece : List Token) :
      (" ".intercalate (piece.map (·.symbol.text))).toList = pieceChars piece := by
    rw [String.toList_intercalate, List.map_map]
    rfl
  rw [render, String.toList_intercalate, List.map_map]
  exact congrArg _ (List.map_congr_left fun piece _ => hpiece piece)

private theorem pieceChars_cons (t : Token) (piece : List Token) :
    pieceChars (t :: piece) =
      t.symbol.text.toList ++ ((if piece = [] then [] else [' ']) ++ pieceChars piece) := by
  cases piece with
  | nil => simp [pieceChars]
  | cons u piece => simp [pieceChars, List.intercalate_cons_cons]

private theorem intercalate_append_cons (sep front back : List Char) (pieces : List (List Char)) :
    sep.intercalate ((front ++ back) :: pieces) = front ++ sep.intercalate (back :: pieces) := by
  cases pieces with
  | nil => simp
  | cons piece pieces => simp [List.intercalate_cons_cons]

/-- No blank stands behind a separator. -/
theorem blankBetween_separator (ss : List Symbol) : blankBetween .separator ss = [] := by
  cases ss <;> simp [blankBetween]

/-- A blank stands behind a symbol unless its statement ends there. -/
private theorem blankBetween_eq {s : Symbol} (hs : s ≠ .separator) (ts : List Token)
    {piece : List Token} (h : piece = [] ↔ ∀ t ∈ ts.head?, t.symbol = .separator) :
    blankBetween s (symbols ts) = if piece = [] then [] else [' '] := by
  cases ts with
  | nil => simp [blankBetween, h]
  | cons t ts => simp [blankBetween, h, hs]

/-- What is written depends on the symbols alone. -/
theorem toList_render_eq_written (ts : List Token) : (render ts).toList = written (symbols ts) := by
  rw [toList_render]
  induction ts with
  | nil => rfl
  | cons t ts ih =>
    obtain ⟨piece, pieces, hts, hempty⟩ := exists_statements ts
    rw [symbols_cons, written, ← ih, hts]
    by_cases ht : t.symbol = .separator
    · rw [statements_separator ht, hts, List.map_cons, List.map_cons, List.intercalate_cons_cons,
        ht, blankBetween_separator]
      rfl
    · rw [statements_cons ht hts, List.map_cons, List.map_cons, pieceChars_cons,
        intercalate_append_cons, intercalate_append_cons, blankBetween_eq ht ts hempty]

private theorem scanFrom_blank (p : Position) (cs : List Char) :
    scanFrom p (' ' :: cs) = scanFrom (p.right 1) cs := by
  rw [scanFrom]
  rfl

/-- A symbol is read, and the text behind it from where it stands. -/
theorem scanFrom_symbol {c : Char} {cs : List Char} {s : Symbol} {n : Nat}
    (hc : ¬ isSpace c = true) (hread : Symbol.read c cs = .ok (s, n)) (p : Position) :
    scanFrom p (c :: cs) = do
      let ts ← scanFrom (if c = '\n' then p.nextLine else p.right (n + 1)) (cs.drop n)
      return ⟨s, p⟩ :: ts := by
  rw [scanFrom, if_neg hc, hread]
  simp only [beq_iff_eq]
  cases scanFrom (if c = '\n' then p.nextLine else p.right (n + 1)) (cs.drop n) <;> rfl

/-- A symbol that is read becomes a token at its place. -/
theorem scanFrom_read {p : Position} {c : Char} {cs rest : List Char} {s : Symbol}
    {ts : List Token} (hspace : isSpace c = false) (hline : c ≠ '\n')
    (h : Symbol.read c (cs ++ rest) = .ok (s, cs.length))
    (hts : scanFrom (p.right (cs.length + 1)) rest = .ok ts) :
    scanFrom p (c :: (cs ++ rest)) = .ok (⟨s, p⟩ :: ts) := by
  rw [scanFrom_symbol (Bool.not_eq_true _ ▸ hspace) h, if_neg hline, List.drop_left, hts]
  rfl

/-- No symbol is spelled with a line break in front. -/
theorem ne_line_of_read {s : Symbol} {c : Char} {cs : List Char} (htext : s.text.toList = c :: cs)
    (hread : Symbol.read c cs = .ok (s, cs.length)) : c ≠ '\n' := by
  rintro rfl
  have hline : Symbol.read '\n' cs = .ok (.separator, 0) := rfl
  rw [hline] at hread
  obtain ⟨rfl, -⟩ := Prod.mk.inj (Except.ok.inj hread)
  cases htext

/-- Before a boundary of statements and within a statement, a gap follows each symbol. -/
theorem gap_written {s : Symbol} (hs : s ≠ .separator) (ss : List Symbol) :
    Gap (blankBetween s ss ++ written ss) := by
  cases ss with
  | nil => exact gap_nil
  | cons s' ss =>
    by_cases hs' : s' = .separator
    · rw [hs', blankBetween, if_pos (.inr rfl)]
      exact gap_colon _
    · rw [blankBetween, if_neg (by simp [hs, hs'])]
      exact gap_blank _

/-- Written symbols, each at the place where it stands when the first one stands at `p`. -/
def placed (p : Position) : List Symbol → List Token
  | [] => []
  | s :: ss => ⟨s, p⟩ :: placed (p.right (s.text.length + (blankBetween s ss).length)) ss

/-- Placing symbols keeps them. -/
theorem symbols_placed (p : Position) (ss : List Symbol) : symbols (placed p ss) = ss := by
  induction ss generalizing p with
  | nil => rfl
  | cons s ss ih => exact congrArg (s :: ·) (ih _)

/-- The blank between symbols is passed over. -/
private theorem scanFrom_blankBetween (p : Position) (s : Symbol) (ss : List Symbol)
    (cs : List Char) :
    scanFrom p (blankBetween s ss ++ cs) = scanFrom (p.right (blankBetween s ss).length) cs := by
  have hblank : blankBetween s ss = [] ∨ blankBetween s ss = [' '] := by
    cases ss with
    | nil => exact .inl rfl
    | cons s' ss =>
      rw [blankBetween]
      split
      · exact .inl rfl
      · exact .inr rfl
  rcases hblank with hblank | hblank
  · rw [hblank]
    rfl
  · rw [hblank, List.singleton_append, scanFrom_blank]
    rfl

/-- Symbols are read from the text they are written with, each at its place. A separator is the one
symbol that another can follow without a gap. -/
theorem scanFrom_written_placed {ss : List Symbol} (h : ∀ s ∈ ss, s.ReadsBack) (p : Position) :
    scanFrom p (written ss) = .ok (placed p ss) := by
  induction ss generalizing p with
  | nil => rw [written, scanFrom, placed]
  | cons s ss ih =>
    obtain ⟨c, cs, htext, hspace, hread⟩ := h s (by simp)
    have hline : c ≠ '\n' := by
      have hread := hread [] gap_nil
      rw [List.append_nil] at hread
      exact ne_line_of_read htext hread
    have hread : Symbol.read c (cs ++ (blankBetween s ss ++ written ss)) = .ok (s, cs.length) := by
      by_cases hs : s = .separator
      · rw [hs] at htext
        cases htext
        rw [hs]
        exact Symbol.read_colon _
      · exact hread _ (gap_written hs ss)
    have hlength : s.text.length = cs.length + 1 := by
      rw [← String.length_toList, htext, List.length_cons]
    have htail : scanFrom (p.right (cs.length + 1)) (blankBetween s ss ++ written ss) =
        .ok (placed (p.right (s.text.length + (blankBetween s ss).length)) ss) := by
      rw [scanFrom_blankBetween, ih fun x hx => h x (by simp [hx]), hlength]
      simp only [Position.right, Nat.add_assoc]
    rw [written, htext, List.cons_append, placed]
    exact scanFrom_read hspace hline hread htail

/-- Symbols are read from the text they are written with. -/
theorem scanFrom_written {ss : List Symbol} (h : ∀ s ∈ ss, s.ReadsBack) (p : Position) :
    ∃ ts, scanFrom p (written ss) = .ok ts ∧ symbols ts = ss :=
  ⟨placed p ss, scanFrom_written_placed h p, symbols_placed p ss⟩

/-- A text that can be read starts with a blank or with a symbol, and the rest can be read. -/
theorem scanFrom_cases {p : Position} {c : Char} {cs : List Char} {ts : List Token}
    (h : scanFrom p (c :: cs) = .ok ts) :
    (isSpace c = true ∧ scanFrom (p.right 1) cs = .ok ts) ∨
      ∃ s n ts', Symbol.read c cs = .ok (s, n) ∧
        scanFrom (if c = '\n' then p.nextLine else p.right (n + 1)) (cs.drop n) = .ok ts' ∧
        ts = ⟨s, p⟩ :: ts' := by
  rw [scanFrom] at h
  split at h
  · next hspace => exact .inl ⟨hspace, h⟩
  · split at h
    · cases h
    · next s n hread =>
      simp only [beq_iff_eq] at h
      split at h
      · cases h
      · next ts' hts' =>
        cases h
        exact .inr ⟨s, n, ts', hread, hts', rfl⟩

/-- Every token of a text is denoted by some lexeme. -/
theorem exists_denotes {p : Position} {cs : List Char} {ts : List Token}
    (h : scanFrom p cs = .ok ts) {t : Token} (ht : t ∈ ts) :
    ∃ x, Symbol.Denotes x t.symbol := by
  induction hlength : cs.length using Nat.strongRecOn generalizing p cs ts with
  | ind length ih =>
    cases cs with
    | nil =>
      rw [scanFrom] at h
      cases h
      cases ht
    | cons c cs =>
      rw [List.length_cons] at hlength
      rcases scanFrom_cases h with ⟨-, h⟩ | ⟨s, n, ts', hread, hts', rfl⟩
      · exact ih cs.length (by omega) h ht rfl
      · rcases List.mem_cons.mp ht with rfl | ht
        · obtain ⟨x, -, -, hx⟩ := Symbol.takes_of_read hread
          exact ⟨c :: x, hx⟩
        · exact ih (cs.drop n).length (by rw [List.length_drop]; omega) hts' ht rfl

/-- What is added to tokens has a fixed spelling. -/
theorem Thins.mem {out ts : List Token} (h : Thins out ts) {t : Token} (ht : t ∈ out) :
    t ∈ ts ∨ t.symbol ∈ Symbol.fixed := by
  have hmultiply : .binary .multiply ∈ Symbol.fixed := by decide +kernel
  have hcloser : ∀ b : Bracket, b.closer ∈ Symbol.fixed := by
    intro b
    cases b <;> decide +kernel
  induction h with
  | nil => cases ht
  | keep u h ih =>
    rcases List.mem_cons.mp ht with rfl | ht
    · exact .inl (by simp)
    · exact (ih ht).imp_left (List.mem_cons_of_mem _)
  | @product a m b out ts hm hab h ih =>
    rcases List.mem_cons.mp ht with rfl | ht
    · exact .inl (by simp)
    · rcases List.mem_cons.mp ht with rfl | ht
      · exact .inr (hm ▸ hmultiply)
      · exact (ih ht).imp_left (List.mem_cons_of_mem _)
  | paren hp hbefore h ih =>
    rcases List.mem_cons.mp ht with rfl | ht
    · exact .inr (hp ▸ hcloser .paren)
    · exact ih ht
  | tail hcs hrest h ih =>
    rcases List.mem_append.mp ht with ht | ht
    · obtain ⟨b, hb⟩ := Option.isSome_iff_exists.mp (hcs t ht)
      exact .inr (Symbol.eq_closer hb ▸ hcloser b)
    · exact ih ht

end Token

namespace Program

open Token (symbols)

/-- The normalized text of a program is the text of its normalized tokens. -/
theorem normalizedText_eq_ok_iff {text normal : String} :
    normalizedText text = .ok normal ↔
      ∃ ts out, Token.scan text = .ok ts ∧ Token.normalize ts = .ok out ∧
        Token.render out = normal := by
  unfold normalizedText
  cases hscan : Token.scan text with
  | error f => simp [Except.mapError, bind, Except.bind]
  | ok ts =>
    cases hnormal : Token.normalize ts with
    | error f => simp [Except.mapError, bind, Except.bind, hnormal]
    | ok out => simp [Except.mapError, bind, Except.bind, hnormal, pure, Except.pure]

/-- The symbols of a normalized program are read back from their spellings. -/
theorem readsBack_of_normalize {text : String} {ts out : List Token}
    (hscan : Token.scan text = .ok ts) (hnormal : Token.normalize ts = .ok out) :
    ∀ s ∈ symbols out, s.ReadsBack := by
  obtain ⟨hsymbols, hthins⟩ := Token.normal_of_normalize hnormal
  intro s hs
  obtain ⟨t, ht, rfl⟩ := List.mem_map.mp hs
  rcases hthins.mem ht with hmem | hfixed
  · obtain ⟨x, hx⟩ := Token.exists_denotes hscan hmem
    refine hx.readsBack fun name hname => hsymbols.named name ?_
    rwa [hname] at hs
  · exact Symbol.readsBack_of_fixed hfixed

/-- A normalized text is read as exactly the symbols that normalization decided on, and it is its
own normalized text. -/
theorem scan_normalizedText {text normal : String} (h : normalizedText text = .ok normal) :
    ∃ ts out ts', Token.scan text = .ok ts ∧ Token.normalize ts = .ok out ∧
      Token.scan normal = .ok ts' ∧ symbols ts' = symbols out ∧
      normalizedText normal = .ok normal := by
  obtain ⟨ts, out, hscan, hnormal, rfl⟩ := normalizedText_eq_ok_iff.mp h
  obtain ⟨ts', hscan', hsymbols⟩ :=
    Token.scanFrom_written (readsBack_of_normalize hscan hnormal) Position.start
  rw [← Token.toList_render_eq_written] at hscan'
  have hnormal' : Normal (symbols ts') := hsymbols ▸ (Token.normal_of_normalize hnormal).1
  obtain ⟨out', hout', hsymbols'⟩ := Token.normalize_of_thins hnormal' (.refl ts')
  have hrender : Token.render out' = Token.render out := by
    apply String.toList_injective
    rw [Token.toList_render_eq_written, Token.toList_render_eq_written, hsymbols', hsymbols]
  exact ⟨ts, out, ts', hscan, hnormal, hscan', hsymbols,
    normalizedText_eq_ok_iff.mpr ⟨ts', out', hscan', hout', hrender⟩⟩

/-- A line with an understood product and closer, other spellings and an open string. -/
theorem scan_normalizedText_line :
    normalizedText "(AL1->C:\"x y" = .ok "( A * ∟₁ ) → C:\"x y\"" ∧
      ∃ ts out ts', Token.scan "(AL1->C:\"x y" = .ok ts ∧ Token.normalize ts = .ok out ∧
        Token.scan "( A * ∟₁ ) → C:\"x y\"" = .ok ts' ∧ symbols ts' = symbols out ∧
        normalizedText "( A * ∟₁ ) → C:\"x y\"" = .ok "( A * ∟₁ ) → C:\"x y\"" := by
  have h : normalizedText "(AL1->C:\"x y" = .ok "( A * ∟₁ ) → C:\"x y\"" := by
    have hsome : (normalizedText "(AL1->C:\"x y").toOption = some "( A * ∟₁ ) → C:\"x y\"" := by
      decide +kernel
    cases hread : normalizedText "(AL1->C:\"x y" with
    | error f =>
      rw [hread] at hsome
      cases hsome
    | ok s =>
      rw [hread] at hsome
      rw [Option.some.inj hsome]
  exact ⟨h, scan_normalizedText h⟩

end Program

end Handheld
