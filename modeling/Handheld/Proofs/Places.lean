import Handheld.Proofs.Lines

/-!
# Where statements stand

A token that is read from a text carries the line and the column of its first character. A statement
carries the place of its first token, but in the normalized text, which is a single line: the line
is always the first, and the column comes behind the normalized form of everything before the
statement. That is the place in the source only as far as no line break comes before it and
normalization has not changed the length of what does.
-/

namespace Handheld

open Token (symbols)

namespace Position

/-- The place after a character. -/
def advance (p : Position) (c : Char) : Position := if c = '\n' then p.nextLine else p.right 1

/-- The place behind the first characters of a text. -/
def after (cs : List Char) : Position := cs.foldl advance start

/-- Steps to the right add up. -/
private theorem right_right (p : Position) (m n : Nat) : (p.right m).right n = p.right (m + n) := by
  rw [right, right, right, Nat.add_assoc]

/-- Behind a line break is the next line. -/
private theorem after_append_line (cs : List Char) :
    after (cs ++ ['\n']) = (after cs).nextLine := by
  rw [after, List.foldl_append]
  rfl

/-- Characters other than line breaks move the place to the right. -/
private theorem foldl_advance {cs : List Char} (h : '\n' ∉ cs) (p : Position) :
    cs.foldl advance p = p.right cs.length := by
  induction cs generalizing p with
  | nil => rfl
  | cons c cs ih =>
    obtain ⟨hc, hcs⟩ := not_or.mp (mt List.mem_cons.mpr h)
    rw [List.foldl_cons, ih hcs, advance, if_neg (Ne.symm hc), right_right, List.length_cons,
      Nat.add_comm]

/-- Characters that stay on a line lead to the right. -/
theorem after_append {cs : List Char} (h : '\n' ∉ cs) (front : List Char) :
    after (front ++ cs) = (after front).right cs.length := by
  rw [after, List.foldl_append, foldl_advance h]
  rfl

/-- The line is counted by the line breaks. -/
private theorem line_foldl_advance (p : Position) (cs : List Char) :
    (cs.foldl advance p).line = p.line + cs.count '\n' := by
  induction cs generalizing p with
  | nil => rfl
  | cons c cs ih =>
    rw [List.foldl_cons, ih, advance]
    by_cases hc : c = '\n'
    · rw [if_pos hc, hc, List.count_cons_self]
      exact Nat.add_right_comm p.line 1 (cs.count '\n')
    · rw [if_neg hc, List.count_cons_of_ne hc]
      rfl

/-- A place on the first line. -/
theorem after_eq_iff {cs : List Char} {n : Nat} :
    after cs = ⟨1, n + 1⟩ ↔ '\n' ∉ cs ∧ cs.length = n := by
  constructor
  · intro h
    have hline : '\n' ∉ cs := by
      have hlines := line_foldl_advance start cs
      have hfirst : (cs.foldl advance start).line = 1 := congrArg line h
      have hstart : start.line = 1 := rfl
      exact List.count_eq_zero.mp (by omega)
    have hcolumn : (after cs).column = n + 1 := congrArg column h
    have hafter : after cs = start.right cs.length := foldl_advance hline start
    have hright : (start.right cs.length).column = 1 + cs.length := rfl
    rw [hafter, hright] at hcolumn
    exact ⟨hline, by omega⟩
  · rintro ⟨hline, rfl⟩
    have hafter : after cs = start.right cs.length := foldl_advance hline start
    rw [hafter, right, start, Nat.add_comm]

end Position

/-- No symbol holds a line break behind its first character. -/
theorem Symbol.not_mem_of_read {c : Char} {x rest : List Char} {s : Symbol}
    (h : read c (x ++ rest) = .ok (s, x.length)) : '\n' ∉ x := by
  intro hmem
  obtain ⟨line, more, rfl, -⟩ := List.eq_append_cons_of_mem hmem
  rw [List.append_assoc, List.cons_append, read_append_line] at h
  have hlength := length_le_of_read h
  simp only [List.length_append, List.length_cons] at hlength
  omega

/-- A symbol ends on the line on which it begins, unless it is the line break. -/
theorem Position.after_read {c : Char} {x rest : List Char} {s : Symbol}
    (h : Symbol.read c (x ++ rest) = .ok (s, x.length)) (front : List Char) :
    after (front ++ c :: x) =
      if c = '\n' then (after front).nextLine else (after front).right (x.length + 1) := by
  by_cases hc : c = '\n'
  · subst hc
    obtain ⟨-, hlength⟩ : Symbol.separator = s ∧ 0 = x.length := Prod.mk.inj (Except.ok.inj h)
    rw [if_pos rfl, List.eq_nil_of_length_eq_zero hlength.symm]
    exact after_append_line front
  · have hline : '\n' ∉ c :: x := by
      simp [Ne.symm hc, Symbol.not_mem_of_read h]
    rw [if_neg hc, after_append hline, List.length_cons]

namespace Token

private theorem ne_line_of_isSpace {c : Char} (h : isSpace c = true) : '\n' ≠ c := by
  rintro rfl
  cases h

/-- How a text that comes behind the characters `front` is read: blanks, a symbol, and so on, and
blanks at the end. -/
inductive Lexed : List Char → List Char → List Token → Prop
  | nil {front ws : List Char} (hws : ∀ c ∈ ws, isSpace c = true) : Lexed front ws []
  | cons {front ws : List Char} {c : Char} {x rest : List Char} {s : Symbol} {ts : List Token}
      (hws : ∀ c ∈ ws, isSpace c = true) (hread : Symbol.read c (x ++ rest) = .ok (s, x.length))
      (h : Lexed (front ++ ws ++ c :: x) rest ts) :
      Lexed front (ws ++ c :: (x ++ rest)) (⟨s, Position.after (front ++ ws)⟩ :: ts)

/-- A blank before a text is passed over. -/
private theorem Lexed.blank {front cs : List Char} {c : Char} {ts : List Token}
    (hc : isSpace c = true) (h : Lexed (front ++ [c]) cs ts) : Lexed front (c :: cs) ts := by
  cases h with
  | nil hws => exact .nil (List.forall_mem_cons.mpr ⟨hc, hws⟩)
  | @cons _ ws d x rest s ts hws hread h =>
    have hfront : front ++ [c] ++ ws = front ++ c :: ws := by simp
    rw [hfront] at h ⊢
    exact .cons (List.forall_mem_cons.mpr ⟨hc, hws⟩) hread h

/-- Each symbol is read where the one before it ends. -/
theorem scanFrom_lexed {front cs : List Char} {ts : List Token}
    (h : scanFrom (Position.after front) cs = .ok ts) : Lexed front cs ts := by
  induction hlength : cs.length using Nat.strongRecOn generalizing front cs ts with
  | ind length ih =>
    cases cs with
    | nil =>
      rw [scanFrom] at h
      cases h
      exact .nil (by simp)
    | cons c cs =>
      rcases scanFrom_cases h with ⟨hspace, h⟩ | ⟨s, n, ts', hread, hts', rfl⟩
      · have hfront : Position.after (front ++ [c]) = (Position.after front).right 1 :=
          Position.after_append (by simpa using ne_line_of_isSpace hspace) front
        rw [← hfront] at h
        rw [List.length_cons] at hlength
        exact .blank hspace (ih cs.length (by omega) h rfl)
      · obtain ⟨x, ⟨rest, rfl⟩, rfl, -⟩ := Symbol.takes_of_read hread
        rw [List.drop_left, ← Position.after_read hread] at hts'
        rw [List.length_cons, List.length_append] at hlength
        have hrest := ih rest.length (by omega) hts' rfl
        have hfirst := @Lexed.cons front [] c x rest s ts' (by simp) hread
        rw [List.append_nil, List.nil_append] at hfirst
        exact hfirst hrest

/-- The tokens of a text are the symbols that are read one after the other. -/
theorem scan_lexed {text : String} {ts : List Token} (h : scan text = .ok ts) :
    Lexed [] text.toList ts := @scanFrom_lexed [] text.toList ts h

/-- The token is read behind the characters `front` of a text, and that is its place. -/
structure Stands (text front : List Char) (t : Token) : Prop where
  read : ∃ c rest n, text = front ++ c :: rest ∧ Symbol.read c rest = .ok (t.symbol, n)
  position : t.position = Position.after front

/-- A token stands where its first character does. -/
theorem Lexed.stands {front cs : List Char} {ts : List Token} (h : Lexed front cs ts) {t : Token}
    (ht : t ∈ ts) : ∃ front', Stands (front ++ cs) front' t := by
  induction h with
  | nil => cases ht
  | @cons front ws c x rest s ts hws hread h ih =>
    rcases List.mem_cons.mp ht with rfl | ht
    · exact ⟨front ++ ws, ⟨c, x ++ rest, x.length, (List.append_assoc ..).symm, hread⟩, rfl⟩
    · have hrest := ih ht
      rwa [List.append_assoc, List.cons_append, List.append_assoc] at hrest

/-- Every token of a text stands where the text before it ends. -/
theorem scan_stands {text : String} {ts : List Token} (h : scan text = .ok ts) {t : Token}
    (ht : t ∈ ts) : ∃ front, Stands text.toList front t :=
  (scan_lexed h).stands ht

/-- The first tokens of the statements. -/
def heads (ts : List Token) : List Token := (statements ts).filterMap List.head?

/-- The first tokens of the statements, where the first one may have begun before. -/
def headsFrom (fresh : Bool) : List Token → List Token
  | [] => []
  | t :: ts =>
    if t.symbol = .separator then headsFrom true ts
    else (if fresh then [t] else []) ++ headsFrom false ts

/-- After a separator a statement begins. -/
private theorem headsFrom_separator {t : Token} (ht : t.symbol = .separator) (fresh : Bool)
    (ts : List Token) : headsFrom fresh (t :: ts) = headsFrom true ts := by
  rw [headsFrom, if_pos ht]

/-- Any other token is the first one of a statement or belongs to the one before. -/
private theorem headsFrom_cons {t : Token} (ht : t.symbol ≠ .separator) (fresh : Bool)
    (ts : List Token) :
    headsFrom fresh (t :: ts) = (if fresh then [t] else []) ++ headsFrom false ts := by
  rw [headsFrom, if_neg ht]

/-- The first tokens of the statements, found from token to token. -/
private theorem heads_eq_headsFrom (ts : List Token) :
    heads ts = headsFrom true ts ∧
      (statements ts).tail.filterMap List.head? = headsFrom false ts := by
  induction ts with
  | nil => exact ⟨rfl, rfl⟩
  | cons t ts ih =>
    by_cases ht : t.symbol = .separator
    · rw [heads, statements_separator ht, headsFrom_separator ht, headsFrom_separator ht]
      exact ⟨ih.1, ih.1⟩
    · obtain ⟨piece, pieces, hts, -⟩ := exists_statements ts
      have hrest := ih.2
      rw [hts] at hrest
      rw [heads, statements_cons ht hts, headsFrom_cons ht, headsFrom_cons ht]
      exact ⟨congrArg (t :: ·) hrest, hrest⟩

/-- The tokens end with a statement: there are none, or a separator comes last. -/
def Closed (ts : List Token) : Prop := ∀ t ∈ ts.getLast?, t.symbol = .separator

private theorem Closed.tail {t : Token} {ts : List Token} (h : Closed (t :: ts)) : Closed ts := by
  intro u hu
  refine h u ?_
  rw [List.getLast?_cons, hu]
  rfl

private theorem Closed.separator {t : Token} (h : Closed [t]) : t.symbol = .separator := h t rfl

/-- A token before closed tokens leaves them closed. -/
private theorem Closed.cons {t : Token} {ts : List Token} (h : Closed ts)
    (ht : ts = [] → t.symbol = .separator) : Closed (t :: ts) := by
  cases ts with
  | nil =>
    intro u hu
    cases hu
    exact ht rfl
  | cons u ts => exact h

/-- What comes behind closed tokens begins with a statement. -/
private theorem headsFrom_append {us : List Token} (h : Closed us) {fresh : Bool}
    (hfresh : us = [] → fresh = true) (vs : List Token) :
    headsFrom fresh (us ++ vs) = headsFrom fresh us ++ headsFrom true vs := by
  induction us generalizing fresh with
  | nil =>
    rw [hfresh rfl]
    rfl
  | cons u us ih =>
    rw [List.cons_append]
    by_cases hu : u.symbol = .separator
    · rw [headsFrom_separator hu, headsFrom_separator hu, ih h.tail fun _ => rfl]
    · have hus : us ≠ [] := by
        rintro rfl
        exact hu h.separator
      rw [headsFrom_cons hu, headsFrom_cons hu, ih h.tail (absurd · hus), List.append_assoc]

/-- The tokens before the first token of a statement are those of the statements before it. -/
theorem exists_of_headsFrom {ts : List Token} {fresh : Bool} {k : Nat} {t : Token}
    (h : (headsFrom fresh ts)[k]? = some t) :
    ∃ us vs, ts = us ++ t :: vs ∧ t.symbol ≠ .separator ∧ Closed us ∧ (us = [] → fresh = true) ∧
      (headsFrom fresh us).length = k := by
  induction ts generalizing fresh k with
  | nil => cases h
  | cons u ts ih =>
    by_cases hu : u.symbol = .separator
    · rw [headsFrom_separator hu] at h
      obtain ⟨us, vs, rfl, ht, hclosed, -, hk⟩ := ih h
      refine ⟨u :: us, vs, rfl, ht, hclosed.cons fun _ => hu, by simp, ?_⟩
      rwa [headsFrom_separator hu]
    · rw [headsFrom_cons hu] at h
      cases fresh with
      | true =>
        cases k with
        | zero =>
          cases h
          exact ⟨[], ts, rfl, hu, by simp [Closed], fun _ => rfl, rfl⟩
        | succ k =>
          have h : (headsFrom false ts)[k]? = some t := h
          obtain ⟨us, vs, rfl, ht, hclosed, hus, rfl⟩ := ih h
          refine ⟨u :: us, vs, rfl, ht, hclosed.cons fun hnil => ?_, fun _ => rfl, ?_⟩
          · cases hus hnil
          · rw [headsFrom_cons hu]
            rfl
      | false =>
        have h : (headsFrom false ts)[k]? = some t := h
        obtain ⟨us, vs, rfl, ht, hclosed, hus, rfl⟩ := ih h
        refine ⟨u :: us, vs, rfl, ht, hclosed.cons fun hnil => ?_, by simp, ?_⟩
        · cases hus hnil
        · rw [headsFrom_cons hu]
          rfl

/-- The token is the first one of a statement, behind the tokens `us` of `k` statements. -/
structure Begins (ts : List Token) (k : Nat) (us : List Token) (t : Token) : Prop where
  split : ∃ vs, ts = us ++ t :: vs
  closed : Closed us
  symbol : t.symbol ≠ .separator
  count : (heads us).length = k

/-- The first token of a statement is preceded by the tokens of the statements before. -/
private theorem exists_begins {ts : List Token} {k : Nat} {t : Token}
    (h : (heads ts)[k]? = some t) : ∃ us, Begins ts k us t := by
  rw [(heads_eq_headsFrom ts).1] at h
  obtain ⟨us, vs, hsplit, ht, hclosed, -, hk⟩ := exists_of_headsFrom h
  refine ⟨us, ⟨vs, hsplit⟩, hclosed, ht, ?_⟩
  rw [(heads_eq_headsFrom us).1, hk]

/-- How many statements there are depends on the symbols only. -/
theorem length_headsFrom {ts ts' : List Token} (h : symbols ts' = symbols ts) (fresh : Bool) :
    (headsFrom fresh ts').length = (headsFrom fresh ts).length := by
  induction ts generalizing ts' fresh with
  | nil =>
    cases List.map_eq_nil_iff.mp h
    rfl
  | cons t ts ih =>
    rcases symbols_cases h with ⟨hnil, -⟩ | ⟨t, us, t', us', hcons, rfl, ht, hus⟩
    · cases hnil
    · cases hcons
      by_cases hsep : t.symbol = .separator
      · rw [headsFrom_separator hsep, headsFrom_separator (ht.trans hsep), ih hus]
      · have hsep' : t'.symbol ≠ .separator := ht ▸ hsep
        rw [headsFrom_cons hsep, headsFrom_cons hsep', List.length_append, List.length_append,
          ih hus]
        cases fresh <;> rfl

/-- Normalization is at the start of a statement. -/
structure Fresh (last : Option Token) (opened : List Bracket) : Prop where
  opened : opened = []
  last : ∀ l ∈ last, l.symbol = .separator

private theorem fresh_none : Fresh none [] := ⟨rfl, by simp⟩

/-- Behind a separator no bracket is open. -/
private theorem fresh_separator {t : Token} (ht : t.symbol = .separator)
    {opened closed opened' : List Bracket}
    (hb : bracketing opened t.symbol = .ok (closed, opened')) : Fresh (some t) opened' := by
  rw [ht] at hb
  cases hb
  exact ⟨rfl, by simp [ht]⟩

variable {last : Option Token} {opened : List Bracket}

/-- What comes before a statement has no influence on it. -/
theorem Fresh.normalizeFrom_eq (h : Fresh last opened) (ts : List Token) :
    normalizeFrom last opened ts = normalize ts := by
  obtain ⟨rfl, hlast⟩ := h
  cases last with
  | none => rfl
  | some l => exact normalizeFrom_separator (hlast l rfl) ts

/-- Nothing is added in front of a statement. -/
theorem Fresh.nothing_before (h : Fresh last opened) {t : Token} {closed opened' : List Bracket}
    (hb : bracketing opened t.symbol = .ok (closed, opened')) :
    productBefore last t ++ closers closed t.position = [] := by
  obtain ⟨rfl, hlast⟩ := h
  have hproduct : productBefore last t = [] := by
    cases last with
    | none => rfl
    | some l =>
      have hvalue : impliesProduct l.symbol t.symbol = false := by
        rw [hlast l rfl]
        rfl
      rw [productBefore, Option.any_some, hvalue]
      rfl
  have hclosed : closed = [] := by
    obtain ⟨outer, hnil, -⟩ := passes_of_bracketing hb
    exact (List.append_eq_nil_iff.mp hnil.symm).1
  rw [hproduct, hclosed]
  rfl

/-- Tokens inside a statement begin none. -/
private theorem headsFrom_of_no_separator {xs : List Token} (h : ∀ x ∈ xs, x.symbol ≠ .separator)
    (ts : List Token) : headsFrom false (xs ++ ts) = headsFrom false ts := by
  induction xs with
  | nil => rfl
  | cons x xs ih =>
    obtain ⟨hx, hxs⟩ := List.forall_mem_cons.mp h
    rw [List.cons_append, headsFrom_cons hx, ih hxs]
    rfl

private theorem closers_ne_separator (bs : List Bracket) (p : Position) :
    ∀ x ∈ closers bs p, x.symbol ≠ .separator := by
  intro x hx
  obtain ⟨b, -, rfl⟩ := List.mem_map.mp hx
  cases b <;> simp [Bracket.closer]

private theorem productBefore_ne_separator (last : Option Token) (t : Token) :
    ∀ x ∈ productBefore last t, x.symbol ≠ .separator := by
  intro x hx
  unfold productBefore at hx
  split at hx
  · cases List.mem_singleton.mp hx
    simp
  · cases hx

/-- Normalization keeps the first tokens of statements, and adds none: at the start of a statement
nothing is added, and elsewhere nothing that is added begins one. -/
theorem headsFrom_normalizeFrom {ts out : List Token} {fresh : Bool}
    (h : normalizeFrom last opened ts = .ok out) (hfresh : fresh = true → Fresh last opened) :
    headsFrom fresh out = headsFrom fresh ts := by
  induction ts generalizing last opened out fresh with
  | nil =>
    cases fresh with
    | true =>
      rw [(hfresh rfl).normalizeFrom_eq] at h
      cases h
      rfl
    | false =>
      cases last with
      | none =>
        cases h
        rfl
      | some l =>
        cases h
        have hclosers :=
          headsFrom_of_no_separator (closers_ne_separator opened l.position) []
        rwa [List.append_nil] at hclosers
  | cons t ts ih =>
    obtain ⟨closed, opened', rest, hb, hrest, rfl⟩ := normalizeFrom_cons_iff.mp h
    have hfront : headsFrom fresh (productBefore last t ++ closers closed t.position ++ t :: rest) =
        headsFrom fresh (t :: rest) := by
      cases fresh with
      | true =>
        rw [(hfresh rfl).nothing_before hb]
        rfl
      | false =>
        refine headsFrom_of_no_separator (fun x hx => ?_) (t :: rest)
        rcases List.mem_append.mp hx with hx | hx
        · exact productBefore_ne_separator last t x hx
        · exact closers_ne_separator closed t.position x hx
    rw [hfront]
    by_cases ht : t.symbol = .separator
    · rw [headsFrom_separator ht, headsFrom_separator ht]
      exact ih hrest fun _ => fresh_separator ht hb
    · rw [headsFrom_cons ht, headsFrom_cons ht, ih hrest (by simp)]

/-- Statements are normalized one after the other. -/
theorem normalizeFrom_append {us vs out : List Token} (hclosed : Closed us)
    (hfresh : us = [] → Fresh last opened) (h : normalizeFrom last opened (us ++ vs) = .ok out) :
    ∃ out₁ out₂, normalizeFrom last opened us = .ok out₁ ∧ normalize vs = .ok out₂ ∧
      out = out₁ ++ out₂ := by
  induction us generalizing last opened out with
  | nil =>
    rw [List.nil_append, (hfresh rfl).normalizeFrom_eq] at h
    exact ⟨[], out, (hfresh rfl).normalizeFrom_eq [], h, rfl⟩
  | cons u us ih =>
    obtain ⟨closed, opened', rest, hb, hrest, rfl⟩ := normalizeFrom_cons_iff.mp h
    have hnext : us = [] → Fresh (some u) opened' := by
      rintro rfl
      exact fresh_separator hclosed.separator hb
    obtain ⟨out₁, out₂, hout₁, hout₂, rfl⟩ := ih hclosed.tail hnext hrest
    refine ⟨_, out₂, normalizeFrom_cons_iff.mpr ⟨closed, opened', out₁, hb, hout₁, rfl⟩, hout₂, ?_⟩
    rw [List.append_assoc, List.append_assoc, List.append_assoc, List.cons_append]

/-- A statement begins with the same token after normalization. -/
theorem exists_of_normalize_cons {t : Token} {ts out : List Token}
    (h : normalize (t :: ts) = .ok out) : ∃ rest, out = t :: rest := by
  obtain ⟨closed, opened', rest, hb, -, rfl⟩ := normalizeFrom_cons_iff.mp h
  rw [fresh_none.nothing_before hb]
  exact ⟨rest, rfl⟩

/-- Normalization keeps the first token of every statement. -/
theorem heads_normalize {ts out : List Token} (h : normalize ts = .ok out) :
    heads out = heads ts := by
  rw [(heads_eq_headsFrom out).1, (heads_eq_headsFrom ts).1]
  exact headsFrom_normalizeFrom h fun _ => fresh_none

/-- Closed tokens are normalized to closed ones. Normalization drops no token, so the last one of
the source is the last one of the result. -/
private theorem Closed.normalizeFrom {us out : List Token} (hclosed : Closed us)
    (hfresh : us = [] → Fresh last opened) (h : normalizeFrom last opened us = .ok out) :
    Closed out := by
  induction us generalizing last opened out with
  | nil =>
    rw [(hfresh rfl).normalizeFrom_eq] at h
    cases h
    exact hclosed
  | cons u us ih =>
    obtain ⟨closed, opened', rest, hb, hrest, rfl⟩ := normalizeFrom_cons_iff.mp h
    have hnext : us = [] → Fresh (some u) opened' := by
      rintro rfl
      exact fresh_separator hclosed.separator hb
    have hlast : Closed (u :: rest) := by
      refine (ih hclosed.tail hnext hrest).cons fun hnil => ?_
      cases us with
      | nil => exact hclosed.separator
      | cons x us =>
        obtain ⟨_, _, _, -, -, hcons⟩ := normalizeFrom_cons_iff.mp hrest
        rw [hnil] at hcons
        simp at hcons
    intro x hx
    refine hlast x ?_
    rwa [List.getLast?_append_of_ne_nil _ (List.cons_ne_nil u rest)] at hx

/-- Whether tokens are closed is seen from their symbols. -/
private theorem closed_iff_symbols {ts : List Token} :
    Closed ts ↔ ∀ s ∈ (symbols ts).getLast?, s = .separator := by
  unfold Closed symbols
  rw [List.getLast?_map]
  cases ts.getLast? <;> simp

/-- The symbols behind closed ones are placed behind their text. -/
private theorem placed_append {ss : List Symbol} (h : ∀ s ∈ ss.getLast?, s = .separator)
    (p : Position) (ss' : List Symbol) :
    placed p (ss ++ ss') = placed p ss ++ placed (p.right (written ss).length) ss' := by
  induction ss generalizing p with
  | nil => rfl
  | cons s ss ih =>
    have hblank : blankBetween s (ss ++ ss') = blankBetween s ss := by
      cases ss with
      | nil =>
        cases h s rfl
        rw [blankBetween_separator, blankBetween_separator]
      | cons x ss => rfl
    have htail : ∀ x ∈ ss.getLast?, x = .separator := by
      intro x hx
      refine h x ?_
      rw [List.getLast?_cons, hx]
      rfl
    have hlength : s.text.length + (blankBetween s ss).length + (written ss).length =
        (written (s :: ss)).length := by
      rw [written, List.length_append, List.length_append, String.length_toList, Nat.add_assoc]
    rw [List.cons_append, placed, placed, hblank, ih htail, Position.right_right, hlength,
      List.cons_append]

/-- In a written text, a statement begins behind what is written before it. -/
theorem getElem?_heads_placed {before : List Token} (hclosed : Closed before) {t : Token}
    (ht : t.symbol ≠ .separator) (rest : List Token) :
    (heads (placed .start (symbols (before ++ t :: rest))))[(heads before).length]? =
      some ⟨t.symbol, ⟨1, (render before).length + 1⟩⟩ := by
  have hsymbols := closed_iff_symbols.mp hclosed
  have hplaced : Closed (placed .start (symbols before)) := by
    rw [closed_iff_symbols, symbols_placed]
    exact hsymbols
  have hcount : (headsFrom true (placed .start (symbols before))).length =
      (heads before).length := by
    rw [(heads_eq_headsFrom before).1]
    exact length_headsFrom (symbols_placed .start (symbols before)) true
  have hlength : (written (symbols before)).length = (render before).length := by
    rw [← toList_render_eq_written, String.length_toList]
  have hplace : Position.start.right (render before).length = ⟨1, (render before).length + 1⟩ := by
    rw [Position.right, Position.start, Nat.add_comm]
  rw [(heads_eq_headsFrom _).1, symbols_append, placed_append hsymbols,
    headsFrom_append hplaced (fun _ => rfl), ← hcount, List.getElem?_append_right (Nat.le_refl _),
    Nat.sub_self, hlength, hplace, symbols_cons, placed, headsFrom, if_neg ht]
  rfl

end Token

/-- The place of a statement is that of its first token, piece by piece. -/
private theorem Statement.positions_ofPieces {pieces : List (List Token)} {ss : List Statement}
    (h : ofPieces pieces = .ok ss) :
    ss.map (·.position) = (pieces.filterMap List.head?).map (·.position) := by
  induction pieces generalizing ss with
  | nil =>
    cases h
    rfl
  | cons piece pieces ih =>
    rw [ofPieces_cons] at h
    obtain ⟨st, hst, h⟩ := Except.bind_ok h
    obtain ⟨rest, hrest, h⟩ := Except.bind_ok h
    cases h
    rw [List.map_append, ih hrest]
    cases piece with
    | nil =>
      cases hst
      rfl
    | cons t ts =>
      obtain ⟨i, -, hi⟩ := Except.bind_ok hst
      cases hi
      rfl

/-- Statements stand where their first tokens do. -/
theorem Statement.positions_ofTokens {ts : List Token} {ss : List Statement}
    (h : ofTokens ts = .ok ss) : ss.map (·.position) = (Token.heads ts).map (·.position) :=
  positions_ofPieces h

namespace Program

/-- The statements of a program are those of its source, in their order, but they carry places in
the normalized text, which their tokens are read from: the first line, and the column behind the
normalized form of the tokens before the statement. That is where the first token of the statement
stands in the source exactly if no line break comes before it there and normalization has not
changed the length of what does. -/
theorem statement_places {name source : String} {p : Program} (h : parse name source = .ok p) :
    ∃ ts, Token.scan source = .ok ts ∧ p.statements.length = (Token.heads ts).length ∧
      ∀ k st, p.statements[k]? = some st →
        ∃ us t front before, Token.Begins ts k us t ∧ Token.Stands source.toList front t ∧
          Token.normalize us = .ok before ∧
          st.position = ⟨1, (Token.render before).length + 1⟩ ∧
          (st.position = t.position ↔
            '\n' ∉ front ∧ front.length = (Token.render before).length) := by
  obtain ⟨ts', ss, hts', hss, rfl⟩ := parse_eq_ok_iff.mp h
  obtain ⟨out, hout, -⟩ := exists_normalizes hts'
  have htokens := hout.normalizedTokens_eq
  rw [hts'] at htokens
  cases htokens
  obtain ⟨ts, hscan, hnormal⟩ := hout
  have hpositions := Statement.positions_ofTokens hss
  have hlength : ss.length = (Token.heads ts).length := by
    have hplaced := congrArg List.length hpositions
    rw [List.length_map, List.length_map, (Token.heads_eq_headsFrom _).1,
      Token.length_headsFrom (Token.symbols_placed .start (symbols out)) true,
      ← (Token.heads_eq_headsFrom out).1, Token.heads_normalize hnormal] at hplaced
    exact hplaced
  refine ⟨ts, hscan, hlength, fun k st hst => ?_⟩
  have hst : ss[k]? = some st := hst
  have hk : k < (Token.heads ts).length := hlength ▸ (List.getElem?_eq_some_iff.mp hst).1
  obtain ⟨us, hbegins⟩ := Token.exists_begins (List.getElem?_eq_getElem hk)
  generalize (Token.heads ts)[k] = t at hbegins
  obtain ⟨vs, rfl⟩ := hbegins.split
  obtain ⟨before, after, hbefore, hafter, rfl⟩ :=
    Token.normalizeFrom_append hbegins.closed (fun _ => Token.fresh_none) hnormal
  obtain ⟨rest, rfl⟩ := Token.exists_of_normalize_cons hafter
  have hposition : st.position = ⟨1, (Token.render before).length + 1⟩ := by
    have hclosed : Token.Closed before :=
      hbegins.closed.normalizeFrom (fun _ => Token.fresh_none) hbefore
    have hhead := Token.getElem?_heads_placed hclosed hbegins.symbol rest
    rw [Token.heads_normalize hbefore, hbegins.count] at hhead
    have hsame := congrArg (·[k]?) hpositions
    simp only [List.getElem?_map, hst, hhead, Option.map_some] at hsame
    exact Option.some.inj hsame
  obtain ⟨front, hstands⟩ := Token.scan_stands hscan
    (List.mem_append_right us (List.mem_cons_self ..) : t ∈ us ++ t :: vs)
  refine ⟨us, t, front, before, hbegins, hstands, hbefore, hposition, ?_⟩
  rw [hposition, hstands.position, eq_comm, Position.after_eq_iff]

/-- Two blanks are enough: they are in the source and not in the normalized text. -/
theorem statement_places_blanks :
    ∃ p st t front, parse "A" "  Then" = .ok p ∧ p.statements = [st] ∧ st.position = ⟨1, 1⟩ ∧
      Token.scan "  Then" = .ok [t] ∧ Token.Stands "  Then".toList front t ∧
      t.position = ⟨1, 3⟩ ∧ (st.position = t.position ↔ '\n' ∉ front ∧ front.length = 0) := by
  have htokens : normalizedTokens "  Then" = .ok [⟨.keyword .consequent, .start⟩] :=
    Except.eq_ok_of_toOption (by decide +kernel)
  have hscan : Token.scan "  Then" = .ok [⟨.keyword .consequent, ⟨1, 3⟩⟩] :=
    Except.eq_ok_of_toOption (by decide +kernel)
  have hparse : parse "A" "  Then" = .ok ⟨"A", "  Then", [⟨.consequent, .start⟩]⟩ :=
    parse_eq_ok_iff.mpr ⟨_, _, htokens, rfl, rfl⟩
  obtain ⟨ts, hts, -, hplaces⟩ := statement_places hparse
  rw [hscan] at hts
  cases hts
  obtain ⟨us, t, front, before, hbegins, hstands, hbefore, -, hsame⟩ := hplaces 0 _ rfl
  obtain ⟨vs, hsplit⟩ := hbegins.split
  obtain ⟨rfl, rfl, rfl⟩ : us = [] ∧ t = ⟨.keyword .consequent, ⟨1, 3⟩⟩ ∧ vs = [] := by
    simpa [List.singleton_eq_append_iff] using hsplit
  cases hbefore
  exact ⟨_, _, _, front, hparse, rfl, rfl, hscan, hstands, rfl, hsame⟩

/-- Statements do not carry the places that their first tokens have in the source: a `Then` on the
second line carries a place on the first. -/
theorem statement_places_ne_source :
    ¬ ∀ (name source : String) (p : Program) (ts : List Token), parse name source = .ok p →
      Token.scan source = .ok ts →
        p.statements.map (·.position) = (Token.heads ts).map (·.position) := by
  intro h
  have htokens : normalizedTokens "\nThen" =
      .ok [⟨.separator, .start⟩, ⟨.keyword .consequent, ⟨1, 2⟩⟩] :=
    Except.eq_ok_of_toOption (by decide +kernel)
  have hparse : parse "A" "\nThen" = .ok ⟨"A", "\nThen", [⟨.consequent, ⟨1, 2⟩⟩]⟩ :=
    parse_eq_ok_iff.mpr ⟨_, _, htokens, rfl, rfl⟩
  have hscan : Token.scan "\nThen" =
      .ok [⟨.separator, .start⟩, ⟨.keyword .consequent, ⟨2, 1⟩⟩] :=
    Except.eq_ok_of_toOption (by decide +kernel)
  have hplaces := h "A" "\nThen" _ _ hparse hscan
  revert hplaces
  decide

end Program

end Handheld
