import Handheld.Proofs.Spelling

/-!
# What lexemes denote

A lexeme is a run of characters that denotes a symbol. What it denotes is said without the reader:
the reader takes a lexeme off a text, and a lexeme that stands alone is read as what it denotes, so
a lexeme denotes one symbol. Everything that is known of the symbols in a text comes from here.
-/

namespace Handheld

namespace Numeral

/-- A mantissa stands at the front of the text. -/
theorem prefix_scanMantissa (pointed : Bool) (cs : List Char) :
    scanMantissa pointed cs <+: cs := by
  fun_induction scanMantissa pointed cs with
  | case1 => exact List.nil_prefix
  | case2 pointed c cs hdigit ih => exact List.cons_prefix_cons.mpr ⟨rfl, ih⟩
  | case3 pointed c cs hdigit hpoint ih => exact List.cons_prefix_cons.mpr ⟨rfl, ih⟩
  | case4 => exact List.nil_prefix

/-- The characters of an exponent stand at the front of the text that it is taken from. -/
private theorem prefix_exponentChars (cs : List Char) : exponentChars (scanExponent cs) <+: cs := by
  have hdigits (ds : List Char) : ds.takeWhile Name.isDigit <+: ds := List.takeWhile_prefix _
  fun_cases scanExponent cs with
  | case1 => exact List.nil_prefix
  | case2 c hmark =>
    rw [beq_iff_eq.mp hmark]
    exact List.prefix_refl _
  | case3 c hmark s ds hminus =>
    rw [beq_iff_eq.mp hmark]
    exact List.cons_prefix_cons.mpr ⟨rfl, List.cons_prefix_cons.mpr ⟨rfl, hdigits ds⟩⟩
  | case4 c hmark s ds hminus =>
    rw [beq_iff_eq.mp hmark]
    exact List.cons_prefix_cons.mpr ⟨rfl, hdigits (s :: ds)⟩
  | case5 => exact List.nil_prefix

/-- The numeral at the start of a text is part of the text. -/
theorem prefix_chars (cs : List Char) : (scan cs).chars <+: cs := by
  have hrest := List.prefix_iff_eq_append.mp (prefix_scanMantissa false cs)
  have hchars := (List.prefix_append_right_inj (scanMantissa false cs)).mpr
    (prefix_exponentChars (cs.drop (scanMantissa false cs).length))
  rw [hrest] at hchars
  exact hchars

/-- A number as it must be written: there is a digit in the mantissa, and one behind the exponent
mark. -/
structure Proper (n : Numeral) : Prop extends Written n where
  digit : ∃ c ∈ n.mantissa, Name.isDigit c = true
  wellFormed : n.wellFormed = true

/-- It begins as a number does, whatever follows: with a digit, or with the point and a digit behind
it, for there is a digit and no other point. -/
theorem Proper.startsNumber {n : Numeral} (h : n.Proper) :
    ∃ c cs, n.chars = c :: cs ∧ ∀ rest, Symbol.startsNumber c (cs ++ rest) = true := by
  obtain ⟨d, hd, hdigit⟩ := h.digit
  have hmantissa := h.mantissa
  rw [chars_eq]
  cases hm : n.mantissa with
  | nil =>
    rw [hm] at hd
    cases hd
  | cons c cs =>
    rw [hm] at hd hmantissa
    refine ⟨c, cs ++ exponentChars n.exponent, rfl, fun rest => ?_⟩
    obtain ⟨hc, -⟩ | ⟨rfl, -, hcs⟩ := hmantissa.uncons
    · simp [Symbol.startsNumber, hc]
    · cases cs with
      | nil =>
        rw [List.mem_singleton.mp hd] at hdigit
        cases hdigit
      | cons x cs =>
        obtain ⟨hx, -⟩ | ⟨-, hpointed, -⟩ := hcs.uncons
        · simp [Symbol.startsNumber, hx]
        · cases hpointed

/-- What is read as a number is proper. -/
theorem proper_scan {c : Char} {cs : List Char} (hstart : Symbol.startsNumber c cs = true)
    (hformed : (scan (c :: cs)).wellFormed = true) : (scan (c :: cs)).Proper := by
  have hdigit : ∃ d ∈ scanMantissa false (c :: cs), Name.isDigit d = true := by
    by_cases hc : Name.isDigit c = true
    · exact ⟨c, by simp [scanMantissa, hc], hc⟩
    · obtain ⟨rfl, hnext⟩ : c = '.' ∧ cs.head?.any Name.isDigit = true := by
        simpa [Symbol.startsNumber, hc] using hstart
      cases cs with
      | nil => cases hnext
      | cons d cs =>
        have hd : Name.isDigit d = true := hnext
        exact ⟨d, by simp [scanMantissa, hd, hc], hd⟩
  exact ⟨written_scan _, hdigit, hformed⟩

end Numeral

/-- The plain digits that can stand for the names of the built-in lists. -/
def Name.IsListDigit (c : Char) : Prop := '1' ≤ c ∧ c ≤ '6'

instance : DecidablePred Name.IsListDigit := fun c =>
  inferInstanceAs (Decidable ('1' ≤ c ∧ c ≤ '6'))

namespace Symbol

/-- The symbol that a lexeme denotes. -/
inductive Denotes : List Char → Symbol → Prop
  /-- The canonical spelling of a symbol, or another one. -/
  | spelled {x : List Char} {s : Symbol} (h : (x, s) ∈ spellings) : Denotes x s
  | lineBreak : Denotes ['\n'] separator
  /-- A number is denoted by its text. -/
  | number {n : Numeral} {v : Float} (h : n.Proper) (hv : n.value? = some v) :
      Denotes n.chars (number (String.ofList n.chars) v)
  /-- A string ends with a quote. -/
  | closed {content : List Char} (h : ∀ c ∈ content, endsString c = false) :
      Denotes ('"' :: (content ++ ['"'])) (string (String.ofList content))
  /-- The quote may be missing. -/
  | unclosed {content : List Char} (h : ∀ c ∈ content, endsString c = false) :
      Denotes ('"' :: content) (string (String.ofList content))
  | var {c : Char} (h : Name.isLetter c = true) : Denotes [c] (var c)
  /-- The name of a list may be missing, or too long. -/
  | list {name : List Char} (h : ∀ c ∈ name, Name.isNameChar c = true) :
      Denotes (Name.listMarker :: name) (list (String.ofList name))
  | subscripted {c : Char} (h : Name.isSubscript c = true) :
      Denotes [Name.listMarker, c] (list c.toString)
  /-- A list that is called by its letter. -/
  | lettered {c : Char} (h : Name.isSubscript c = true) : Denotes ['L', c] (list c.toString)
  /-- A list that is called by its letter and a plain digit. -/
  | numbered {c : Char} (h : Name.IsListDigit c) :
      Denotes ['L', c] (list (subscript c).toString)
  | program {name : List Char} (hne : name ≠ []) (h : ∀ c ∈ name, Name.isNameChar c = true) :
      Denotes (programWord ++ name) (program (String.ofList name))

/-- The symbol is denoted by the character `c` and the first `n` characters of a text behind it. -/
def Takes (c : Char) (cs : List Char) (s : Symbol) (n : Nat) : Prop :=
  ∃ x, x <+: cs ∧ n = x.length ∧ Denotes (c :: x) s

/-- A string is denoted by its text, with the quotation mark that ends it if there is one. -/
private theorem takes_readString (cs : List Char) :
    Takes '"' cs (readString cs).1 (readString cs).2 := by
  let content := cs.takeWhile (!endsString ·)
  have hcontent : ∀ c ∈ content, endsString c = false := by
    intro c hc
    simpa using List.mem_takeWhile_imp hc
  have hprefix : content <+: cs := List.takeWhile_prefix _
  have hread : readString cs = (string (String.ofList content),
      content.length + if (cs.drop content.length).head? == some '"' then 1 else 0) := rfl
  rw [hread]
  split
  · next hclosed =>
    obtain ⟨rest, hrest⟩ := List.head?_eq_some_iff.mp (beq_iff_eq.mp hclosed)
    have hcs := List.prefix_iff_eq_append.mp hprefix
    rw [hrest] at hcs
    refine ⟨content ++ ['"'], ⟨rest, by simpa using hcs⟩, by simp, .closed hcontent⟩
  · exact ⟨content, hprefix, rfl, .unclosed hcontent⟩

/-- A number is denoted by its numeral. -/
private theorem takes_of_readNumber {c : Char} {cs : List Char} {s : Symbol} {n : Nat}
    (hstart : startsNumber c cs = true) (h : readNumber (c :: cs) = .ok (s, n)) :
    Takes c cs s n := by
  have hprefix := Numeral.prefix_chars (c :: cs)
  unfold readNumber at h
  simp only at h
  split at h
  · next hformed =>
    split at h
    · next v hv =>
      cases h
      have hproper := Numeral.proper_scan hstart hformed
      have hdenotes := Denotes.number hproper hv
      obtain ⟨d, ds, hchars, -⟩ := hproper.startsNumber
      rw [hchars] at hprefix hdenotes ⊢
      obtain ⟨rfl, hds⟩ := List.cons_prefix_cons.mp hprefix
      exact ⟨ds, hds, rfl, hdenotes⟩
    · cases h
  · cases h

/-- A list is denoted by the mark and the name behind it. -/
private theorem takes_listName (cs : List Char) :
    Takes Name.listMarker cs (list (String.ofList (listName cs))) (listName cs).length := by
  cases cs with
  | nil => exact ⟨[], List.nil_prefix, rfl, .list (by simp)⟩
  | cons c cs =>
    rw [listName]
    split
    · next hsub => exact ⟨[c], by simp, rfl, .subscripted hsub⟩
    · exact ⟨_, List.takeWhile_prefix _, rfl, .list fun c hc => List.mem_takeWhile_imp hc⟩

/-- A list of the calculator is denoted by its letter and its number. -/
private theorem takes_of_builtinList {cs : List Char} {sub : Char} (h : builtinList cs = some sub) :
    Takes 'L' cs (list sub.toString) 1 := by
  cases cs with
  | nil => cases h
  | cons c cs =>
    refine ⟨[c], by simp, rfl, ?_⟩
    rw [builtinList] at h
    split at h
    · next hsub =>
      rw [← Option.some.inj h]
      exact .lettered hsub
    · split at h
      · next hdigit =>
        rw [← Option.some.inj h]
        simp only [Bool.and_eq_true, decide_eq_true_eq] at hdigit
        exact .numbered hdigit.1
      · cases h

/-- What follows the word that calls a program. -/
theorem eq_of_programWord {c : Char} {cs : List Char}
    (h : programWord.isPrefixOf (c :: cs) = true) :
    ∃ tail, c = 'p' ∧ cs = 'r' :: 'g' :: 'm' :: tail := by
  obtain ⟨tail, htail⟩ := List.isPrefixOf_iff_prefix.mp h
  cases htail
  exact ⟨tail, rfl, rfl⟩

/-- A word is denoted by its spelling, the call of a program by its word and the name, and a
variable by its letter. -/
private theorem takes_of_readWord {c : Char} {cs : List Char} {s : Symbol} {n : Nat}
    (h : readWord c cs = .ok (s, n)) : Takes c cs s n := by
  unfold readWord at h
  split at h
  · next hprogram =>
    obtain ⟨tail, rfl, rfl⟩ := eq_of_programWord hprogram
    simp only [List.drop_succ_cons, List.drop_zero] at h
    split at h
    · cases h
    · next hne =>
      cases h
      refine ⟨'r' :: 'g' :: 'm' :: tail.takeWhile Name.isNameChar, ?_, Nat.add_comm _ _, ?_⟩
      · simpa using List.takeWhile_prefix _
      · exact .program (by simpa using hne) fun c hc => List.mem_takeWhile_imp hc
  · split at h
    · next spelling s' hlongest =>
      cases h
      obtain ⟨hmem, hstart⟩ := mem_of_longestSpelling hlongest
      obtain ⟨d, ds, rfl, -⟩ := read_of_mem_spellings hmem (endsWords_of_gap gap_nil)
      obtain ⟨rfl, hds⟩ := List.cons_prefix_cons.mp hstart
      exact ⟨ds, hds, rfl, .spelled hmem⟩
    · split at h
      · next hletter =>
        cases h
        exact ⟨[], List.nil_prefix, rfl, .var hletter⟩
      · cases h

/-- What is read denotes the symbol that it is read as. -/
theorem takes_of_read {c : Char} {cs : List Char} {s : Symbol} {n : Nat}
    (h : read c cs = .ok (s, n)) : Takes c cs s n := by
  unfold read at h
  split at h
  · next hc =>
    cases h
    rw [beq_iff_eq.mp hc]
    exact ⟨[], List.nil_prefix, rfl, .lineBreak⟩
  · split at h
    · next hc =>
      have hstring := takes_readString cs
      rw [Except.ok.inj h] at hstring
      rwa [beq_iff_eq.mp hc]
    · split at h
      · next hstart => exact takes_of_readNumber hstart h
      · split at h
        · next hc =>
          cases h
          rw [beq_iff_eq.mp hc]
          exact takes_listName cs
        · split at h
          · next hc =>
            split at h
            · next sub hbuiltin =>
              cases h
              rw [beq_iff_eq.mp hc]
              exact takes_of_builtinList hbuiltin
            · exact takes_of_readWord h
          · exact takes_of_readWord h

/-- A symbol that takes a whole text is denoted by it. -/
theorem denotes_of_read {c : Char} {x rest : List Char} {s : Symbol}
    (h : read c (x ++ rest) = .ok (s, x.length)) : Denotes (c :: x) s := by
  obtain ⟨y, ⟨rest', hy⟩, hlength, hdenotes⟩ := takes_of_read h
  rwa [(List.append_inj hy hlength.symm).1] at hdenotes

/-- A symbol ends with its text. -/
theorem length_le_of_read {c : Char} {cs : List Char} {s : Symbol} {n : Nat}
    (h : read c cs = .ok (s, n)) : n ≤ cs.length := by
  obtain ⟨x, hx, rfl, -⟩ := takes_of_read h
  exact hx.length_le

theorem ne_of_startsNumber {c : Char} {cs : List Char} (h : startsNumber c cs = true) (x : Char)
    (hx : startsNumber x cs = false) : c ≠ x := by
  rintro rfl
  rw [h] at hx
  cases hx

theorem not_isSpace_of_startsNumber {c : Char} {cs : List Char} (h : startsNumber c cs = true) :
    Token.isSpace c = false := by
  have hne := ne_of_startsNumber h
  simp [Token.isSpace, hne ' ' rfl, hne '\t' rfl, hne '\r' rfl]

/-- A number is read back from its numeral. -/
private theorem readsBack_number {n : Numeral} (h : n.Proper) {v : Float} (hv : n.value? = some v) :
    ReadsBack (number (String.ofList n.chars) v) := by
  obtain ⟨c, cs, hchars, hstarts⟩ := h.startsNumber
  refine ⟨c, cs, by simp [text, hchars], not_isSpace_of_startsNumber (hstarts []),
    fun rest hrest => ?_⟩
  have hne := ne_of_startsNumber (hstarts rest)
  have hscan := h.scan_append hrest
  rw [hchars, List.cons_append] at hscan
  simp [read, hne '\n' rfl, hne '"' rfl, hstarts rest, readNumber, hscan, h.wellFormed, hv, hchars]

/-- A string that is not closed ends with the text. -/
private theorem read_unclosed {content : List Char} (h : ∀ c ∈ content, endsString c = false) :
    read '"' content = .ok (string (String.ofList content), content.length) := by
  have htake : content.takeWhile (!endsString ·) = content :=
    List.takeWhile_eq_self_iff.mpr fun c hc => by simp [h c hc]
  have hread : readString content = (string (String.ofList content), content.length) := by
    simp [readString, htake]
  rw [read, hread]
  rfl

private theorem not_isSubscript_of_le {c d : Char} (h : c ≤ d) (hd : ¬ '₁' ≤ d) :
    Name.isSubscript c = false := by
  have hc : ¬ '₁' ≤ c := fun hc => hd (Char.le_trans hc h)
  simp [Name.isSubscript, hc]

/-- No character of a name is a subscript. -/
theorem not_isSubscript_of_isNameChar {c : Char} (h : Name.isNameChar c = true) :
    Name.isSubscript c = false := by
  simp only [Name.isNameChar, Name.isLetter, Name.isDigit, Bool.or_eq_true, Bool.and_eq_true,
    decide_eq_true_eq, beq_iff_eq] at h
  obtain (⟨-, hZ⟩ | rfl) | ⟨-, h9⟩ := h
  · exact not_isSubscript_of_le hZ (by decide)
  · rfl
  · exact not_isSubscript_of_le h9 (by decide)

/-- A name is taken whole. -/
private theorem listName_eq_self {name : List Char} (h : ∀ c ∈ name, Name.isNameChar c = true) :
    listName name = name := by
  cases name with
  | nil => rfl
  | cons c cs =>
    rw [listName, not_isSubscript_of_isNameChar (h c List.mem_cons_self)]
    exact List.takeWhile_eq_self_iff.mpr h

/-- A digit calls a list, unless another digit or a point follows. -/
theorem builtinList_digit {c : Char} {cs : List Char} (hc : Name.IsListDigit c)
    (hcs : ∀ d ∈ cs.head?, Name.isDigit d = false ∧ d ≠ '.') :
    builtinList (c :: cs) = some (subscript c) := by
  have hnext : cs.head?.any (fun d => Name.isDigit d || d == '.') = false := by
    cases cs with
    | nil => rfl
    | cons d cs => simpa using hcs d rfl
  rw [builtinList, not_isSubscript_of_le hc.2 (by decide), hnext]
  simp [hc.1, hc.2]

/-- The letter calls a list. -/
theorem read_letter_list {cs : List Char} {sub : Char} (h : builtinList cs = some sub) :
    read 'L' cs = .ok (list sub.toString, 1) := by
  rw [read, h]
  rfl

/-- A symbol that is read back from its canonical spelling. -/
theorem ReadsBack.read {s : Symbol} (h : s.ReadsBack) :
    ∃ c cs, s.text.toList = c :: cs ∧ Symbol.read c cs = .ok (s, cs.length) := by
  obtain ⟨c, cs, htext, -, hread⟩ := h
  have hread := hread [] gap_nil
  rw [List.append_nil] at hread
  exact ⟨c, cs, htext, hread⟩

/-- A lexeme that stands alone is read as what it denotes. -/
theorem Denotes.read {x : List Char} {s : Symbol} (h : Denotes x s) :
    ∃ c cs, x = c :: cs ∧ Symbol.read c cs = .ok (s, cs.length) := by
  cases h with
  | spelled h =>
    obtain ⟨c, cs, hx, -, hread⟩ := read_of_mem_spellings h (endsWords_of_gap gap_nil)
    rw [List.append_nil] at hread
    exact ⟨c, cs, hx, hread⟩
  | lineBreak => exact ⟨'\n', [], rfl, rfl⟩
  | number h hv => simpa [text] using (readsBack_number h hv).read
  | @closed content h =>
    have hback : ReadsBack (string (String.ofList content)) := readsBack_string (by simpa using h)
    simpa [text] using hback.read
  | unclosed h => exact ⟨'"', _, rfl, read_unclosed h⟩
  | var h => simpa [text] using (readsBack_var h).read
  | @list name h =>
    refine ⟨Name.listMarker, name, rfl, ?_⟩
    rw [read_listMarker, listName_eq_self h]
  | @subscripted c h =>
    refine ⟨Name.listMarker, [c], rfl, ?_⟩
    rw [read_listMarker, listName, if_pos h]
    rfl
  | @lettered c h =>
    refine ⟨'L', [c], rfl, read_letter_list ?_⟩
    rw [builtinList, if_pos h]
  | @numbered c h => exact ⟨'L', [c], rfl, read_letter_list (builtinList_digit h (by simp))⟩
  | @program name hne h =>
    have hback : ReadsBack (Symbol.program (String.ofList name)) :=
      readsBack_program (by simpa using hne) (by simpa using h)
    simpa [text, programWord] using hback.read

/-- A lexeme denotes one symbol. -/
theorem Denotes.unique {x : List Char} {s s' : Symbol} (h : Denotes x s) (h' : Denotes x s') :
    s = s' := by
  obtain ⟨c, cs, rfl, hread⟩ := h.read
  obtain ⟨c', cs', heq, hread'⟩ := h'.read
  cases heq
  rw [hread] at hread'
  exact (Prod.mk.inj (Except.ok.inj hread')).1

/-- A symbol that a lexeme denotes is read back from its canonical spelling, if list names are
valid. -/
theorem Denotes.readsBack {x : List Char} {s : Symbol} (h : Denotes x s)
    (hname : ∀ name, s = .list name → Name.checkList name = .ok ()) : ReadsBack s := by
  cases h with
  | spelled h => exact readsBack_of_fixed (mem_fixed_of_mem_spellings h)
  | lineBreak => exact readsBack_of_fixed (by decide +kernel)
  | number h hv => exact readsBack_number h hv
  | closed h | unclosed h => exact readsBack_string (by simpa using h)
  | var h => exact readsBack_var h
  | list | subscripted | lettered | numbered => exact readsBack_list (hname _ rfl)
  | program hne h => exact readsBack_program (by simpa using hne) (by simpa using h)

end Symbol

end Handheld
