/-!
# Blanks around a text

The white space characters and the removal of those at both ends of a text.
-/

namespace Handheld.Text

/-- The code points of white space. -/
def blanks : List Nat :=
  [0x9, 0xA, 0xB, 0xC, 0xD, 0x20, 0x85, 0xA0, 0x1680, 0x2000, 0x2001, 0x2002, 0x2003, 0x2004, 0x2005,
    0x2006, 0x2007, 0x2008, 0x2009, 0x200A, 0x2028, 0x2029, 0x202F, 0x205F, 0x3000]

/-- White space. -/
def isBlank (c : Char) : Bool := blanks.contains c.toNat

/-- The text without the characters at its end that satisfy `p`. -/
def trimEnd (p : Char → Bool) (cs : List Char) : List Char :=
  (cs.reverse.dropWhile p).reverse

/-- The text without white space at its ends. -/
def trim (cs : List Char) : List Char :=
  trimEnd isBlank (cs.dropWhile isBlank)

/-- The same letters, capital or small; the long `ſ` counts as an `s`. -/
def equalLetters (a b : String) : Bool :=
  a.toList.map fold == b.toList.map fold
where
  /-- The small form of a Latin letter. -/
  fold (c : Char) : Char :=
    if c == 'ſ' then 's' else c.toLower

end Handheld.Text
