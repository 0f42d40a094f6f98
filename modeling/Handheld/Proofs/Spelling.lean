import Handheld.Token.Lexer
import Mathlib.Data.List.TakeWhile

/-!
# Reading canonical spellings

A symbol that was read from a text is read again from its canonical spelling, whatever spelling it
had in the text. What follows may be a blank, a colon or the end. No symbol but a string holds a
blank or a colon after its first character, so none goes on beyond its spelling.
-/

namespace Handheld

/-- What may follow a spelling: a blank, a colon or nothing. -/
def Gap (cs : List Char) : Prop := ∀ c ∈ cs.head?, c = ' ' ∨ c = ':'

theorem gap_nil : Gap [] := by simp [Gap]

theorem gap_blank (cs : List Char) : Gap (' ' :: cs) := by simp [Gap]

theorem gap_colon (cs : List Char) : Gap (':' :: cs) := by simp [Gap]

/-- A run of some kind of characters ends at a gap. -/
theorem takeWhile_append_gap {p : Char → Bool} {cs rest : List Char} (hcs : ∀ c ∈ cs, p c = true)
    (hrest : Gap rest) (hblank : p ' ' = false) (hcolon : p ':' = false) :
    (cs ++ rest).takeWhile p = cs := by
  rw [List.takeWhile_append_of_pos hcs]
  cases rest with
  | nil => simp
  | cons c rest => rcases hrest c rfl with rfl | rfl <;> simp [hblank, hcolon]

namespace Numeral

/-- A digit is no minus sign. -/
theorem not_isMinus_of_isDigit {c : Char} (h : Name.isDigit c = true) : isMinus c = false := by
  cases hminus : isMinus c with
  | false => rfl
  | true =>
    simp only [isMinus, Bool.or_eq_true, beq_iff_eq] at hminus
    obtain (rfl | rfl) | rfl := hminus <;> exact absurd h (by decide)

/-- A mantissa consists of digits, with at most one point among them. -/
structure Mantissa (pointed : Bool) (cs : List Char) : Prop where
  chars : ∀ c ∈ cs, Name.isDigit c = true ∨ c = '.'
  point : cs.count '.' ≤ if pointed then 0 else 1

/-- A mantissa begins with a digit or with its one point. -/
theorem Mantissa.uncons {pointed : Bool} {c : Char} {cs : List Char} (h : Mantissa pointed (c :: cs)) :
    Name.isDigit c = true ∧ Mantissa pointed cs ∨
      c = '.' ∧ pointed = false ∧ Mantissa true cs := by
  obtain ⟨hc, hcs⟩ := List.forall_mem_cons.mp h.chars
  have hpoint := h.point
  rcases hc with hc | rfl
  · have hne : c ≠ '.' := by
      rintro rfl
      cases hc
    rw [List.count_cons_of_ne hne] at hpoint
    exact .inl ⟨hc, hcs, hpoint⟩
  · rw [List.count_cons_self] at hpoint
    cases pointed with
    | true => exact absurd hpoint (Nat.not_succ_le_zero _)
    | false => exact .inr ⟨rfl, rfl, hcs, Nat.le_of_succ_le_succ hpoint⟩

/-- What is taken for a mantissa is one. -/
private theorem mantissa_scanMantissa (pointed : Bool) (cs : List Char) :
    Mantissa pointed (scanMantissa pointed cs) := by
  fun_induction scanMantissa pointed cs with
  | case1 => exact ⟨by simp, by simp⟩
  | case2 pointed c cs hdigit ih =>
    have hne : c ≠ '.' := by
      rintro rfl
      cases hdigit
    refine ⟨List.forall_mem_cons.mpr ⟨.inl hdigit, ih.chars⟩, ?_⟩
    rw [List.count_cons_of_ne hne]
    exact ih.point
  | case3 pointed c cs hdigit hpoint ih =>
    obtain ⟨rfl, rfl⟩ : c = '.' ∧ pointed = false := by simpa using hpoint
    refine ⟨List.forall_mem_cons.mpr ⟨.inr rfl, ih.chars⟩, ?_⟩
    rw [List.count_cons_self]
    exact Nat.succ_le_succ ih.point
  | case4 => exact ⟨by simp, by simp⟩

/-- The mantissa ends where no digit and no point comes. -/
theorem Mantissa.scan_append {pointed : Bool} {cs rest : List Char} (h : Mantissa pointed cs)
    (hrest : ∀ c ∈ rest.head?, Name.isDigit c = false ∧ c ≠ '.') :
    scanMantissa pointed (cs ++ rest) = cs := by
  induction cs generalizing pointed with
  | nil =>
    cases rest with
    | nil => rfl
    | cons c rest =>
      obtain ⟨hdigit, hpoint⟩ := hrest c rfl
      simp [scanMantissa, hdigit, hpoint]
  | cons c cs ih =>
    rw [List.cons_append, scanMantissa]
    obtain ⟨hdigit, hcs⟩ | ⟨rfl, rfl, hcs⟩ := h.uncons
    · rw [if_pos hdigit, ih hcs]
    · rw [ih hcs]
      rfl

/-- The characters of an exponent. -/
def exponentChars : Option (Option Char × List Char) → List Char
  | none => []
  | some (sign, ds) => exponentMark :: (sign.toList ++ ds)

/-- No sign is read in front of digits, nor at a gap. -/
theorem scanExponent_digits {ds rest : List Char} (hds : ∀ c ∈ ds, Name.isDigit c = true)
    (hrest : Gap rest) : scanExponent (exponentMark :: (ds ++ rest)) = some (none, ds) := by
  have hdigits := takeWhile_append_gap hds hrest rfl rfl
  have hsign (s : Char) (hs : s ∈ (ds ++ rest).head?) : isMinus s = false := by
    cases ds with
    | nil => rcases hrest s hs with rfl | rfl <;> rfl
    | cons d ds =>
      cases hs
      exact not_isMinus_of_isDigit (hds s (by simp))
  cases h : ds ++ rest with
  | nil =>
    rw [(List.append_eq_nil_iff.mp h).1]
    rfl
  | cons s tail =>
    rw [h] at hdigits hsign
    simp [scanExponent, hsign s rfl, hdigits]

/-- An exponent consists of a sign, if there is one, and of digits. -/
structure Exponent (e : Option Char × List Char) : Prop where
  sign : ∀ c ∈ e.1, isMinus c = true
  digits : ∀ c ∈ e.2, Name.isDigit c = true

/-- What is taken for an exponent is one. -/
private theorem exponent_scanExponent (cs : List Char) : ∀ e ∈ scanExponent cs, Exponent e := by
  have hall {ds : List Char} (c : Char) (hc : c ∈ ds.takeWhile Name.isDigit) :
      Name.isDigit c = true := List.mem_takeWhile_imp hc
  fun_cases scanExponent cs with
  | case1 => exact nofun
  | case2 =>
    rintro e ⟨⟩
    exact ⟨nofun, nofun⟩
  | case3 c hmark s ds hminus =>
    rintro e ⟨⟩
    refine ⟨?_, hall⟩
    rintro s ⟨⟩
    exact hminus
  | case4 =>
    rintro e ⟨⟩
    exact ⟨nofun, hall⟩
  | case5 => exact nofun

/-- An exponent is taken whole up to a gap. -/
private theorem scanExponent_append {e : Option (Option Char × List Char)} (h : ∀ x ∈ e, Exponent x)
    {rest : List Char} (hrest : Gap rest) : scanExponent (exponentChars e ++ rest) = e := by
  match e with
  | none =>
    cases rest with
    | nil => rfl
    | cons c rest => rcases hrest c rfl with rfl | rfl <;> rfl
  | some (none, ds) => exact scanExponent_digits (h _ rfl).digits hrest
  | some (some s, ds) =>
    have hdigits := takeWhile_append_gap (h _ rfl).digits hrest rfl rfl
    simp [exponentChars, scanExponent, (h _ rfl).sign s rfl, hdigits]

/-- The parts of the numeral are a mantissa and an exponent. -/
structure Written (n : Numeral) : Prop where
  mantissa : Mantissa false n.mantissa
  exponent : ∀ e ∈ n.exponent, Exponent e

/-- The parts of a scanned numeral are a mantissa and an exponent. -/
theorem written_scan (cs : List Char) : (scan cs).Written :=
  ⟨mantissa_scanMantissa false cs, exponent_scanExponent _⟩

/-- The characters of a numeral are those of its mantissa and of its exponent. -/
theorem chars_eq (n : Numeral) : n.chars = n.mantissa ++ exponentChars n.exponent := by
  rw [chars]
  cases n.exponent <;> rfl

/-- A numeral is read from its characters. -/
theorem Written.scan_append {n : Numeral} (h : n.Written) {rest : List Char} (hrest : Gap rest) :
    scan (n.chars ++ rest) = n := by
  have hnext : ∀ c ∈ (exponentChars n.exponent ++ rest).head?,
      Name.isDigit c = false ∧ c ≠ '.' := by
    intro c hc
    cases he : n.exponent with
    | none =>
      rw [he] at hc
      rcases hrest c hc with rfl | rfl <;> decide
    | some e =>
      rw [he] at hc
      cases hc
      decide
  rw [scan, chars_eq, List.append_assoc, h.mantissa.scan_append hnext, List.drop_left,
    scanExponent_append h.exponent hrest]

end Numeral

namespace Symbol

/-- The symbol is read from its canonical spelling, with a gap after it. -/
def ReadsBack (s : Symbol) : Prop :=
  ∃ c cs, s.text.toList = c :: cs ∧ Token.isSpace c = false ∧
    ∀ rest, Gap rest → read c (cs ++ rest) = .ok (s, cs.length)

/-- What starts neither a number nor a list, a string or a separator. -/
def startsWord (c : Char) : Bool :=
  !(Token.isSpace c || Name.isDigit c || ['\n', '"', '.', Name.listMarker, 'L'].contains c)

private theorem not_isSpace_of_startsWord {c : Char} (hc : startsWord c = true) :
    Token.isSpace c = false := by
  simp only [startsWord, Bool.not_eq_true', Bool.or_eq_false_iff] at hc
  exact hc.1.1

/-- What starts neither a number nor a list, a string or a separator is read as a word. -/
theorem read_eq_readWord {c : Char} (hc : startsWord c = true) (cs : List Char) :
    read c cs = readWord c cs := by
  simp_all [startsWord, read, startsNumber]

/-- A spelling is not continued by a character that it does not hold. -/
theorem isPrefixOf_append {sp text rest : List Char} (hrest : ∀ c ∈ rest.head?, c ∉ sp) :
    sp.isPrefixOf (text ++ rest) = sp.isPrefixOf text := by
  induction sp generalizing text with
  | nil => simp
  | cons a sp ih =>
    cases text with
    | nil =>
      cases rest with
      | nil => rfl
      | cons c rest =>
        have hc : a ≠ c := fun hac => hrest c rfl (by simp [hac])
        simp [List.isPrefixOf, hc]
    | cons b text =>
      rw [List.cons_append, List.isPrefixOf, List.isPrefixOf,
        ih fun c hc hmem => hrest c hc (List.mem_cons_of_mem a hmem)]

/-- Neither a fixed spelling nor the word that calls a program holds the character after its
first. -/
def EndsWords (c : Char) : Prop := (∀ sp ∈ spellings, c ∉ sp.1.tail) ∧ c ∉ programWord.tail

/-- A gap ends words. -/
theorem endsWords_of_gap {rest : List Char} (hrest : Gap rest) : ∀ c ∈ rest.head?, EndsWords c := by
  have htails : ∀ sp ∈ spellings, ' ' ∉ sp.1.tail ∧ ':' ∉ sp.1.tail := by decide +kernel
  intro c hc
  rcases hrest c hc with rfl | rfl
  · exact ⟨fun sp hsp => (htails sp hsp).1, by decide⟩
  · exact ⟨fun sp hsp => (htails sp hsp).2, by decide⟩

/-- What ends words does not change which fixed spelling is the longest. -/
theorem longestSpelling_append {c : Char} {cs rest : List Char}
    (hrest : ∀ d ∈ rest.head?, EndsWords d) :
    longestSpelling (c :: (cs ++ rest)) = longestSpelling (c :: cs) := by
  have hfilter : spellings.filter (·.1.isPrefixOf (c :: (cs ++ rest))) =
      spellings.filter (·.1.isPrefixOf (c :: cs)) := by
    refine List.filter_congr fun sp hsp => ?_
    cases h : sp.1 with
    | nil => rfl
    | cons a tail =>
      have htail : ∀ d ∈ rest.head?, d ∉ tail := by
        intro d hd
        have hout := (hrest d hd).1 sp hsp
        rwa [h] at hout
      rw [List.isPrefixOf, List.isPrefixOf, isPrefixOf_append htail]
  rw [longestSpelling, longestSpelling, hfilter]

/-- Whether the word that calls a program comes does not depend on what follows, if that ends
words. -/
theorem programWord_append {c : Char} {cs rest : List Char}
    (hrest : ∀ d ∈ rest.head?, EndsWords d) :
    programWord.isPrefixOf (c :: (cs ++ rest)) = programWord.isPrefixOf (c :: cs) := by
  have htail : ∀ d ∈ rest.head?, d ∉ ['r', 'g', 'm'] := fun d hd => (hrest d hd).2
  rw [programWord, List.isPrefixOf, List.isPrefixOf, isPrefixOf_append htail]

/-- A symbol is read from any of its fixed spellings. -/
theorem read_of_mem_spellings {spelling : List Char} {s : Symbol} (h : (spelling, s) ∈ spellings)
    {rest : List Char} (hrest : ∀ d ∈ rest.head?, EndsWords d) :
    ∃ c cs, spelling = c :: cs ∧ Token.isSpace c = false ∧
      read c (cs ++ rest) = .ok (s, cs.length) := by
  have htable : ∀ sp ∈ spellings, sp.1.head?.any startsWord = true ∧
      programWord.isPrefixOf sp.1 = false ∧ longestSpelling sp.1 = some sp := by
    decide +kernel
  obtain ⟨hstart, hprogram, hlongest⟩ := htable _ h
  cases spelling with
  | nil => cases hstart
  | cons c cs =>
    have hc : startsWord c = true := hstart
    refine ⟨c, cs, rfl, not_isSpace_of_startsWord hc, ?_⟩
    rw [read_eq_readWord hc, readWord, programWord_append hrest, hprogram,
      longestSpelling_append hrest, hlongest]
    rfl

/-- A symbol with a fixed spelling is read from it. -/
theorem readsBack_of_fixed {s : Symbol} (hs : s ∈ fixed) : ReadsBack s := by
  have hmem : (s.text.toList, s) ∈ spellings := List.mem_append_left _ (List.mem_map_of_mem hs)
  obtain ⟨c, cs, htext, hspace, -⟩ := read_of_mem_spellings hmem (endsWords_of_gap gap_nil)
  refine ⟨c, cs, htext, hspace, fun rest hrest => ?_⟩
  obtain ⟨c', cs', htext', -, hread⟩ := read_of_mem_spellings hmem (endsWords_of_gap hrest)
  rw [htext] at htext'
  cases htext'
  exact hread

/-- Whatever follows a colon, the colon is a separator. -/
theorem read_colon (cs : List Char) : read ':' cs = .ok (separator, 0) := by
  have hlongest : longestSpelling (':' :: cs) = some ([':'], separator) := by
    have hcolons : ∀ sp ∈ spellings, sp.1.head? = some ':' → sp.1.tail = [] := by decide +kernel
    have hfilter : spellings.filter (·.1.isPrefixOf (':' :: cs)) =
        spellings.filter (·.1.isPrefixOf [':']) := by
      refine List.filter_congr fun sp hsp => ?_
      cases h : sp.1 with
      | nil => rfl
      | cons a tail =>
        have hcolon := hcolons sp hsp
        rw [h, List.head?_cons, List.tail_cons, Option.some.injEq] at hcolon
        by_cases ha : a = ':'
        · rw [hcolon ha]
          rfl
        · rw [List.isPrefixOf, List.isPrefixOf, beq_eq_false_iff_ne.mpr ha]
          rfl
    rw [longestSpelling, hfilter]
    decide +kernel
  rw [read_eq_readWord (by decide), readWord, hlongest]
  rfl

private theorem not_isDigit_of_isLetter {c : Char} (h : Name.isLetter c = true) :
    Name.isDigit c = false := by
  rw [Name.isLetter, Bool.or_eq_true, Bool.and_eq_true, decide_eq_true_eq, decide_eq_true_eq,
    beq_iff_eq] at h
  rcases h with ⟨hA, -⟩ | rfl
  · have hc : ¬ c ≤ '9' := fun h9 => absurd (Char.le_trans hA h9) (by decide)
    simp [Name.isDigit, hc]
  · decide

private theorem ne_of_isLetter {c : Char} (hc : Name.isLetter c = true) (x : Char)
    (hx : Name.isLetter x = false) : c ≠ x := by
  rintro rfl
  rw [hc] at hx
  cases hx

/-- No fixed spelling is a single letter. -/
theorem longestSpelling_letter {c : Char} (hc : Name.isLetter c = true) :
    longestSpelling [c] = none := by
  have htable : ∀ sp ∈ spellings, sp.1 ≠ [] ∧
      (sp.1.tail = [] → sp.1.head?.all (!Name.isLetter ·) = true) := by decide +kernel
  have hfilter : spellings.filter (·.1.isPrefixOf [c]) = [] := by
    refine List.filter_eq_nil_iff.mpr fun sp hsp hstart => ?_
    obtain ⟨hne, hletter⟩ := htable sp hsp
    cases h : sp.1 with
    | nil => exact hne h
    | cons a tail =>
      rw [h] at hstart hletter
      obtain ⟨rfl, rfl⟩ : a = c ∧ tail = [] := by simpa [List.isPrefixOf] using hstart
      simp [hc] at hletter
  rw [longestSpelling, hfilter]

/-- A variable is read back from its letter. -/
theorem readsBack_var {c : Char} (hc : Name.isLetter c = true) : ReadsBack (var c) := by
  have hne (x : Char) (hx : Name.isLetter x = false) : c ≠ x := ne_of_isLetter hc x hx
  have hdigit : Name.isDigit c = false := not_isDigit_of_isLetter hc
  have hspace : Token.isSpace c = false := by
    simp [Token.isSpace, hne ' ' rfl, hne '\t' rfl, hne '\r' rfl]
  refine ⟨c, [], String.toList_singleton c, hspace, fun rest hrest => ?_⟩
  have hread : read c rest = readWord c rest := by
    by_cases hL : c = 'L'
    · have hbuiltin : builtinList rest = none := by
        cases rest with
        | nil => rfl
        | cons d rest => rcases hrest d rfl with rfl | rfl <;> rfl
      rw [hL, read, hbuiltin]
      rfl
    · refine read_eq_readWord ?_ rest
      simp [startsWord, hspace, hdigit, hL, hne '\n' rfl, hne '"' rfl, hne '.' rfl,
        hne Name.listMarker rfl]
  have hprogram : programWord.isPrefixOf (c :: rest) = false := by
    simp [programWord, List.isPrefixOf, (hne 'p' rfl).symm]
  have hlongest : longestSpelling (c :: rest) = none :=
    (@longestSpelling_append c [] rest (endsWords_of_gap hrest)).trans (longestSpelling_letter hc)
  rw [List.nil_append, hread, readWord, hprogram, hlongest]
  simp [hc]

/-- A string is read back from its text in quotation marks. -/
theorem readsBack_string {content : String}
    (hcontent : ∀ c ∈ content.toList, endsString c = false) : ReadsBack (string content) := by
  refine ⟨'"', content.toList ++ ['"'], by simp [text], rfl, fun rest _ => ?_⟩
  have htake : (content.toList ++ '"' :: rest).takeWhile (!endsString ·) = content.toList := by
    rw [List.takeWhile_append_of_pos fun c hc => by simp [hcontent c hc]]
    simp [endsString]
  have hread : readString (content.toList ++ '"' :: rest) =
      (string content, content.toList.length + 1) := by
    simp [readString, htake]
  rw [List.append_assoc, List.singleton_append, List.length_append, List.length_singleton, read,
    hread]
  rfl

/-- A valid list name is one subscript digit, or it consists of name characters. -/
theorem checkList_ok {name : String} (h : Name.checkList name = .ok ()) :
    (∃ c, name.toList = [c] ∧ Name.isSubscript c = true) ∨
      ∃ c cs, name.toList = c :: cs ∧ Name.isSubscript c = false ∧
        ∀ x ∈ c :: cs, Name.isNameChar x = true := by
  unfold Name.checkList at h
  split at h
  · cases h
  · next c cs hname =>
    by_cases hsub : Name.isSubscript c = true
    · rw [if_pos hsub] at h
      cases cs with
      | nil => exact .inl ⟨c, hname, hsub⟩
      | cons d cs => cases h
    · rw [if_neg hsub] at h
      split at h
      · cases h
      · split at h
        · cases h
        · next hletter =>
          split at h
          · cases h
          · next hfind =>
            refine .inr ⟨c, cs, hname, by simpa using hsub, fun x hx => ?_⟩
            rcases List.mem_cons.mp hx with rfl | hx
            · simp_all [Name.isNameChar]
            · simpa using List.find?_eq_none.mp hfind x hx

/-- Behind the mark of lists their name is read. -/
theorem read_listMarker (cs : List Char) :
    read Name.listMarker cs = .ok (list (String.ofList (listName cs)), (listName cs).length) := rfl

/-- A list with a valid name is read back from the mark and the name. -/
theorem readsBack_list {name : String} (hname : Name.checkList name = .ok ()) :
    ReadsBack (list name) := by
  refine ⟨Name.listMarker, name.toList, by simp [text], by decide, fun rest hrest => ?_⟩
  have hlist : listName (name.toList ++ rest) = name.toList := by
    rcases checkList_ok hname with ⟨c, hc, hsub⟩ | ⟨c, cs, hc, hsub, hchars⟩
    · simp [hc, listName, hsub]
    · rw [hc, List.cons_append, listName, hsub]
      exact takeWhile_append_gap hchars hrest (by decide) (by decide)
  rw [read_listMarker, hlist, String.ofList_toList]

/-- A call of a program is read back from its word and the name. -/
theorem readsBack_program {name : String} (hne : name.toList ≠ [])
    (hname : ∀ c ∈ name.toList, Name.isNameChar c = true) : ReadsBack (program name) := by
  refine ⟨'p', ['r', 'g', 'm'] ++ name.toList, by simp [text], by decide, fun rest hrest => ?_⟩
  have htake : (name.toList ++ rest).takeWhile Name.isNameChar = name.toList :=
    takeWhile_append_gap hname hrest (by decide) (by decide)
  have hprogram :
      programWord.isPrefixOf ('p' :: 'r' :: 'g' :: 'm' :: (name.toList ++ rest)) = true := rfl
  rw [read_eq_readWord (by decide), readWord]
  simp only [List.cons_append, List.nil_append, hprogram, List.drop_succ_cons, List.drop_zero,
    htake]
  have hlength : 3 + name.toList.length = ('r' :: 'g' :: 'm' :: name.toList).length :=
    Nat.add_comm ..
  simp [hne, hlength]

/-- The longest spelling is one of the spellings. -/
private theorem foldl_longer_mem (sp : List Char × Symbol) (sps : List (List Char × Symbol)) :
    sps.foldl longer sp ∈ sp :: sps := by
  induction sps generalizing sp with
  | nil => simp
  | cons sp' sps ih =>
    rw [List.foldl_cons]
    have hlonger : longer sp sp' = sp ∨ longer sp sp' = sp' := by
      unfold longer
      split
      · exact .inr rfl
      · exact .inl rfl
    rcases List.mem_cons.mp (ih (longer sp sp')) with h | h
    · rw [h]
      rcases hlonger with h' | h' <;> simp [h']
    · simp [h]

/-- The longest spelling is one of the table, and the text starts with it. -/
theorem mem_of_longestSpelling {cs : List Char} {sp : List Char × Symbol}
    (h : longestSpelling cs = some sp) : sp ∈ spellings ∧ sp.1 <+: cs := by
  unfold longestSpelling at h
  split at h
  · cases h
  · next sp' sps hfilter =>
    have hmem := foldl_longer_mem sp' sps
    rw [Option.some.inj h, ← hfilter] at hmem
    obtain ⟨hmem, hstart⟩ := List.mem_filter.mp hmem
    exact ⟨hmem, List.isPrefixOf_iff_prefix.mp hstart⟩

/-- Spellings are those of symbols with a fixed spelling. -/
theorem mem_fixed_of_mem_spellings {spelling : List Char} {s : Symbol}
    (h : (spelling, s) ∈ spellings) : s ∈ fixed := by
  have htable : ∀ sp ∈ spellings, sp.2 ∈ fixed := by decide +kernel
  exact htable _ h

end Symbol

end Handheld
