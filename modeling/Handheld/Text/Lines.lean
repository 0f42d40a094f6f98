/-!
# Lines of a text

A text is cut after each line break, so a text that ends with a break has no empty line after it.
-/

namespace Handheld.Text

/-- Cuts a text after each line break; the last piece may lack one. The breaks are dropped. -/
def cutLines : List Char → List (List Char)
  | [] => []
  | c :: cs =>
    if c == '\n' then [] :: cutLines cs
    else
      match cutLines cs with
      | [] => [[c]]
      | line :: lines => (c :: line) :: lines

/-- Cuts a text at each character that satisfies `p`; the pieces lie between those. -/
def cutAt (p : Char → Bool) : List Char → List (List Char)
  | [] => [[]]
  | c :: cs =>
    if p c then [] :: cutAt p cs
    else
      match cutAt p cs with
      | [] => [[c]]
      | piece :: pieces => (c :: piece) :: pieces

end Handheld.Text
