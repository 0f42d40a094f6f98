import Handheld.Proofs.Places

/-!
# Texts are cut into lexemes

A text that can be read is cut into blanks and lexemes. Nothing but blanks is left out and no
character is used twice; each lexeme denotes the symbol of its token, and the token has the line and
the column of the first character of the lexeme.
-/

namespace Handheld

/-- The place behind the first characters of a text: one line more than there are line breaks, and
one column more than there are characters behind the last of them. -/
def Position.behind (front : List Char) : Position :=
  ⟨1 + front.count '\n', 1 + (front.reverse.takeWhile (· ≠ '\n')).length⟩

/-- Going on character by character leads there. -/
theorem Position.after_eq_behind (front : List Char) : after front = behind front := by
  induction front using List.reverseRecOn with
  | nil => rfl
  | append_singleton front c ih =>
    rw [after, List.foldl_append, ← after, ih]
    by_cases hc : c = '\n'
    · simp [behind, advance, nextLine, hc, Nat.add_assoc]
    · simp [behind, advance, right, hc, Nat.add_assoc]

namespace Token

/-- A text that comes behind the characters `front` is cut into blanks and lexemes, and the tokens
are what the lexemes denote, each at the place of its lexeme. -/
inductive Cut : List Char → List Char → List Token → Prop
  | blanks {front ws : List Char} (hws : ∀ c ∈ ws, isSpace c = true) : Cut front ws []
  | lexeme {front ws x rest : List Char} {s : Symbol} {ts : List Token}
      (hws : ∀ c ∈ ws, isSpace c = true) (hne : x ≠ []) (hx : Symbol.Denotes x s)
      (h : Cut (front ++ ws ++ x) rest ts) :
      Cut front (ws ++ x ++ rest) (⟨s, Position.behind (front ++ ws)⟩ :: ts)

/-- What is read symbol by symbol is cut into the lexemes of the symbols. -/
private theorem Lexed.cut {front cs : List Char} {ts : List Token} (h : Lexed front cs ts) :
    Cut front cs ts := by
  induction h with
  | nil hws => exact .blanks hws
  | @cons front ws c x rest s ts hws hread h ih =>
    have hcut := Cut.lexeme hws (List.cons_ne_nil c x) (Symbol.denotes_of_read hread) ih
    rw [List.append_assoc, List.cons_append] at hcut
    rwa [Position.after_eq_behind]

/-- The text of tokens is the lexemes with blanks between them: each token is the one that its
lexeme denotes and has the line and the column where the lexeme begins, and there is nothing else in
the text. -/
theorem cut_of_scan {text : String} {ts : List Token} (h : scan text = .ok ts) :
    Cut [] text.toList ts ∧
      ∀ x s s', Symbol.Denotes x s → Symbol.Denotes x s' → s = s' :=
  ⟨(scan_lexed h).cut, fun _ _ _ => Symbol.Denotes.unique⟩

/-- Two lines with an arrow that ends a string, a list called by a digit, and a number. -/
theorem cut_of_scan_lines :
    let text := "\"a→L1\n 2.5ᴇ-1>=∟AB"
    let ts := [⟨.string "a", ⟨1, 1⟩⟩, ⟨.store, ⟨1, 3⟩⟩, ⟨.list "₁", ⟨1, 4⟩⟩,
      ⟨.separator, ⟨1, 6⟩⟩, ⟨.number "2.5ᴇ-1" 0.25, ⟨2, 2⟩⟩, ⟨.binary .greaterEqual, ⟨2, 8⟩⟩,
      ⟨.list "AB", ⟨2, 10⟩⟩]
    scan text = .ok ts ∧ Cut [] text.toList ts ∧
      ∀ s, Symbol.Denotes ['L', '1'] s → s = .list "₁" := by
  intro text ts
  have h : scan text = .ok ts := Except.eq_ok_of_toOption (by decide +kernel)
  obtain ⟨hcut, hunique⟩ := cut_of_scan h
  exact ⟨h, hcut, fun s hs => hunique _ _ _ hs (.numbered (by decide))⟩

end Token

end Handheld
