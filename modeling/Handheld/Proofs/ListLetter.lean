import Handheld.Proofs.Lines

/-!
# The letter of the lists in front of a number

The letter `L` and one of the digits 1 to 6 are a list. In front of any other number the letter is
the variable, and the two are a product. Only a digit or a point behind the first digit shows the
reader that the number goes on, so it takes a digit with an exponent for a list as well, and then
nothing can be made of the exponent mark.
-/

namespace Handheld

/-- What follows the first character of a number. -/
theorem Numeral.Proper.next {n : Numeral} (h : n.Proper) {c : Char} {cs : List Char}
    (hchars : n.chars = c :: cs) :
    ∀ d ∈ cs.head?, Name.isDigit d = true ∨ d = '.' ∨ d = exponentMark := by
  obtain ⟨x, hx, -⟩ := h.digit
  have hmantissa := h.mantissa.chars
  rw [chars_eq] at hchars
  cases hm : n.mantissa with
  | nil =>
    rw [hm] at hx
    cases hx
  | cons c' m =>
    rw [hm] at hchars hmantissa
    cases hchars
    intro d hd
    cases m with
    | nil =>
      cases he : n.exponent with
      | none =>
        rw [he] at hd
        cases hd
      | some e =>
        rw [he] at hd
        cases hd
        exact .inr (.inr rfl)
    | cons d' m =>
      cases hd
      exact (hmantissa d (by simp)).imp_right .inl

namespace Symbol

/-- Only a numeral denotes a number. -/
theorem Denotes.exists_numeral {x : List Char} {t : String} {v : Float}
    (h : Denotes x (.number t v)) :
    ∃ n : Numeral, n.Proper ∧ n.value? = some v ∧ t = String.ofList n.chars := by
  cases h with
  | spelled h =>
    have htable : ∀ sp ∈ spellings, sp.2.isNumber = false := by decide +kernel
    cases htable _ h
  | @number n v h hv => exact ⟨n, h, hv, rfl⟩

/-- No spelling is found where none begins with the character. -/
private theorem longestSpelling_eq_none {c : Char} (hc : ∀ sp ∈ spellings, sp.1.head? ≠ some c)
    (cs : List Char) : longestSpelling (c :: cs) = none := by
  cases h : longestSpelling (c :: cs) with
  | none => rfl
  | some sp =>
    obtain ⟨hmem, hstart⟩ := mem_of_longestSpelling h
    obtain ⟨d, ds, hsp, -⟩ := read_of_mem_spellings hmem (endsWords_of_gap gap_nil)
    rw [hsp] at hstart
    have hhead : sp.1.head? = some c := by
      rw [hsp, (List.cons_prefix_cons.mp hstart).1]
      rfl
    exact absurd hhead (hc sp hmem)

/-- A character with which no spelling starts is a variable, or it is refused. -/
theorem readWord_unspelled {c : Char} (hc : ∀ sp ∈ spellings, sp.1.head? ≠ some c) (hp : c ≠ 'p')
    (cs : List Char) :
    readWord c cs = if Name.isLetter c then .ok (var c, 0) else .error (.unexpected c) := by
  have hprogram : programWord.isPrefixOf (c :: cs) = false := by
    simp [programWord, List.isPrefixOf, hp.symm]
  rw [readWord, hprogram, longestSpelling_eq_none hc]
  rfl

/-- The letter is a variable if it does not call a list. -/
theorem read_letter {cs : List Char} (h : builtinList cs = none) :
    read 'L' cs = .ok (var 'L', 0) := by
  have hword : readWord 'L' cs = .ok (var 'L', 0) :=
    readWord_unspelled (by decide +kernel) (by decide) cs
  rw [read, h, hword]
  rfl

/-- No symbol starts with the exponent mark. -/
theorem read_exponentMark (cs : List Char) :
    read Numeral.exponentMark cs = .error (.unexpected Numeral.exponentMark) := by
  rw [read_eq_readWord (by decide)]
  exact readWord_unspelled (by decide +kernel) (by decide) cs

/-- In front of a number the letter is the variable, unless the number is one of the digits or the
reader takes it for one. -/
theorem builtinList_number {c : Char} {cs : List Char} (hstart : startsNumber c cs = true)
    (h : Name.IsListDigit c → ∃ d ∈ cs.head?, Name.isDigit d = true ∨ d = '.') :
    builtinList (c :: cs) = none := by
  have hsub : Name.isSubscript c = false := by
    simp only [startsNumber, Bool.or_eq_true, Bool.and_eq_true, beq_iff_eq] at hstart
    rcases hstart with hdigit | ⟨rfl, -⟩
    · exact not_isSubscript_of_isNameChar (by simp [Name.isNameChar, hdigit])
    · rfl
  rw [builtinList, hsub]
  by_cases hc : Name.IsListDigit c
  · obtain ⟨d, hd, hnext⟩ := h hc
    have hany : cs.head?.any (fun d => Name.isDigit d || d == '.') = true := by
      rw [Option.mem_def.mp hd]
      simpa using hnext
    simp [hany]
  · have hrange : ('1' ≤ c && c ≤ '6') = false := by simpa [Name.IsListDigit] using hc
    simp [hrange]

end Symbol

namespace Token

open Numeral (exponentMark)

section Letter

variable {c : Char} {cs : List Char}

/-- The letter with the number of a list is that list. -/
private theorem scan_letter_list {sub : Char} (h : Symbol.builtinList [c] = some sub) :
    scanFrom .start ['L', c] = .ok [⟨.list sub.toString, .start⟩] := by
  have hend : scanFrom ⟨1, 3⟩ [] = .ok [] := by rw [scanFrom]
  exact @scanFrom_read .start 'L' [c] [] _ _ rfl (by decide) (Symbol.read_letter_list h) hend

/-- An exponent mark behind such a list is not expected. -/
private theorem scan_letter_mark {sub : Char}
    (h : Symbol.builtinList (c :: exponentMark :: cs) = some sub) :
    scanFrom .start ('L' :: c :: exponentMark :: cs) =
      .error ⟨.unexpected exponentMark, ⟨1, 3⟩⟩ := by
  have hmark : scanFrom ⟨1, 3⟩ (exponentMark :: cs) =
      .error ⟨.unexpected exponentMark, ⟨1, 3⟩⟩ :=
    scanFrom_error (by decide) (Symbol.read_exponentMark cs) _
  rw [scanFrom_symbol (by decide) (Symbol.read_letter_list h), if_neg (by decide)]
  change (scanFrom ⟨1, 3⟩ (exponentMark :: cs) >>= _) = _
  rw [hmark]
  rfl

/-- The letter with any other number is a variable and the number. -/
private theorem scan_letter_var (h : Symbol.builtinList (c :: cs) = none) {s : Symbol}
    (hstart : Symbol.startsNumber c cs = true) (hread : Symbol.read c cs = .ok (s, cs.length)) :
    scanFrom .start ('L' :: c :: cs) = .ok [⟨.var 'L', .start⟩, ⟨s, ⟨1, 2⟩⟩] := by
  have hend : scanFrom (Position.right ⟨1, 2⟩ (cs.length + 1)) [] = .ok [] := by rw [scanFrom]
  have hnumber := @scanFrom_read ⟨1, 2⟩ c cs [] s [] (Symbol.not_isSpace_of_startsNumber hstart)
    (Symbol.ne_of_startsNumber hstart _ rfl) (by rwa [List.append_nil]) hend
  rw [List.append_nil] at hnumber
  exact @scanFrom_read .start 'L' [] (c :: cs) _ _ rfl (by decide) (Symbol.read_letter h) hnumber

end Letter

/-- The letter `L` in front of a number, as the reader takes it. One of the digits 1 to 6 makes it a
list, and nothing can be made of such a digit with an exponent. In front of any other number the
letter is the variable, which is multiplied by the number. -/
theorem scan_letter_number {text : String} {v : Float} {p : Position}
    (h : scan text = .ok [⟨.number text v, p⟩]) :
    (∀ d, Name.IsListDigit d → text.toList = [d] →
      scan ("L" ++ text) = .ok [⟨.list (Symbol.subscript d).toString, .start⟩]) ∧
    (∀ d rest, Name.IsListDigit d → text.toList = d :: exponentMark :: rest →
      scan ("L" ++ text) = .error ⟨.unexpected exponentMark, ⟨1, 3⟩⟩) ∧
    ((∀ d rest, Name.IsListDigit d →
        text.toList ≠ [d] ∧ text.toList ≠ d :: exponentMark :: rest) →
      scan ("L" ++ text) = .ok [⟨.var 'L', .start⟩, ⟨.number text v, ⟨1, 2⟩⟩] ∧
      normalize [⟨.var 'L', .start⟩, ⟨.number text v, ⟨1, 2⟩⟩] =
        .ok [⟨.var 'L', .start⟩, ⟨.binary .multiply, ⟨1, 2⟩⟩, ⟨.number text v, ⟨1, 2⟩⟩]) := by
  obtain ⟨x, hx⟩ := exists_denotes h (List.mem_singleton.mpr rfl)
  obtain ⟨n, hproper, hv, rfl⟩ := hx.exists_numeral
  obtain ⟨c, cs, hchars, hread⟩ := (Symbol.Denotes.number hproper hv).read
  have hstart : Symbol.startsNumber c cs = true := by
    obtain ⟨d, ds, hds, hstarts⟩ := hproper.startsNumber
    cases hchars.symm.trans hds
    simpa using hstarts []
  have hscan : scan ("L" ++ String.ofList n.chars) = scanFrom .start ('L' :: c :: cs) := by
    simp [scan, hchars]
  rw [hscan, String.toList_ofList, hchars]
  refine ⟨fun d hd hlone => ?_, fun d rest hd hmark => ?_, fun hother => ⟨?_, rfl⟩⟩
  · cases hlone
    exact scan_letter_list (Symbol.builtinList_digit hd (by simp))
  · cases hmark
    refine scan_letter_mark (Symbol.builtinList_digit hd ?_)
    rintro _ ⟨⟩
    decide
  · have hvar : Symbol.builtinList (c :: cs) = none := by
      refine Symbol.builtinList_number hstart fun hc => ?_
      cases cs with
      | nil => exact absurd rfl (hother c [] hc).1
      | cons d cs =>
        rcases hproper.next hchars d rfl with hd | hd | rfl
        · exact ⟨d, rfl, .inl hd⟩
        · exact ⟨d, rfl, .inr hd⟩
        · exact absurd rfl (hother c cs hc).2
    rw [hchars] at hread
    exact scan_letter_var hvar hstart hread

/-- The digit 3, the same digit with an exponent, and a number of two digits. -/
theorem scan_letter_number_cases :
    scan "L3" = .ok [⟨.list "₃", .start⟩] ∧
      scan "L3ᴇ2" = .error ⟨.unexpected 'ᴇ', ⟨1, 3⟩⟩ ∧
      scan "L32" = .ok [⟨.var 'L', .start⟩, ⟨.number "32" 32, ⟨1, 2⟩⟩] := by
  have hdigit : scan "3" = .ok [⟨.number "3" 3, .start⟩] :=
    Except.eq_ok_of_toOption (by decide +kernel)
  have hexponent : scan "3ᴇ2" = .ok [⟨.number "3ᴇ2" 300, .start⟩] :=
    Except.eq_ok_of_toOption (by decide +kernel)
  have hdigits : scan "32" = .ok [⟨.number "32" 32, .start⟩] :=
    Except.eq_ok_of_toOption (by decide +kernel)
  refine ⟨(scan_letter_number hdigit).1 '3' (by decide) rfl,
    (scan_letter_number hexponent).2.1 '3' ['2'] (by decide) rfl, ?_⟩
  refine ((scan_letter_number hdigits).2.2 fun d rest hd => ⟨?_, ?_⟩).1
  · intro h
    cases h
  · intro h
    cases h

/-- The letter in front of a number that is not one of the digits is not always the variable. -/
theorem scan_letter_exponent :
    ¬ ∀ (text : String) (v : Float) (p : Position),
      scan text = .ok [⟨.number text v, p⟩] → (∀ d, Name.IsListDigit d → text.toList ≠ [d]) →
        scan ("L" ++ text) = .ok [⟨.var 'L', .start⟩, ⟨.number text v, ⟨1, 2⟩⟩] := by
  intro h
  have hexponent : scan "1ᴇ2" = .ok [⟨.number "1ᴇ2" 100, .start⟩] :=
    Except.eq_ok_of_toOption (by decide +kernel)
  have hread := h "1ᴇ2" 100 .start hexponent fun d hd hlone => by cases hlone
  have hnone : (scan ("L" ++ "1ᴇ2")).toOption = none := by decide +kernel
  rw [hread] at hnone
  cases hnone

end Token

end Handheld
