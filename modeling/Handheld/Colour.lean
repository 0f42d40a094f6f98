import Handheld.Session

/-!
# Coloured lines

On a terminal the results of a session are green and its faults red.
-/

namespace Handheld.Colour

/-- Starts green text. -/
def green : String := "\x1b[32;22m"

/-- Starts red text. -/
def red : String := "\x1b[31;22m"

/-- Ends coloured text. -/
def reset : String := "\x1b[0;0m"

/-- The colour of a line. -/
def of (line : String) : String := if line.startsWith Session.errorMark then red else green

/-- A coloured line of some words. -/
def paint (words : List String) : String :=
  let line := " ".intercalate words
  of line ++ line ++ reset ++ "\n"

end Handheld.Colour
