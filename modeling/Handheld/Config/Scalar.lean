/-!
# Scalars of a configuration file

A scalar is plain text, text in single or double quotes, or a block of lines after a bar. Plain and
quoted text may go on over several lines, which are then joined. Every reader says what it read,
where it stopped, and what is left.
-/

namespace Handheld.Config

/-- A blank inside a line. -/
def isGap (c : Char) : Bool := c == ' ' || c == '\t'

/-- A character that ends a line. -/
def isBreak (c : Char) : Bool := c == '\n' || c == '\u2028' || c == '\u2029'

/-- A text starts with a blank or a line break, or is over. -/
def startsBlank : List Char → Bool
  | [] => true
  | c :: _ => isGap c || isBreak c

/-- A text starts with three times the character `c`, alone. -/
def startsTriple (c : Char) (cs : List Char) : Bool :=
  cs.take 3 == [c, c, c] && startsBlank (cs.drop 3)

/-- A line that starts or ends a document. -/
def startsDocumentMark (cs : List Char) : Bool := startsTriple '-' cs || startsTriple '.' cs

/-- A place in a file, counted from zero. -/
structure Mark where
  /-- The line. -/
  line : Nat
  /-- The place in the line. -/
  column : Nat
deriving DecidableEq, Repr

namespace Mark

/-- The place `n` characters further on. -/
def right (m : Mark) (n : Nat) : Mark := ⟨m.line, m.column + n⟩

/-- The start of the next line. -/
def down (m : Mark) : Mark := ⟨m.line + 1, 0⟩

end Mark

/-- A scalar. -/
structure Scalar where
  /-- Its text without quotes. -/
  text : String
  /-- It was not written as plain text. -/
  quoted : Bool
deriving DecidableEq, Repr

namespace Scalar

/-- Nothing at all. -/
def missing : Scalar := ⟨"", false⟩

/-- The scalar says that nothing was given. -/
def isNull (s : Scalar) : Bool := !s.quoted && ["", "~", "null", "Null", "NULL"].contains s.text

/-- The truth value of a scalar. -/
def bool? (s : Scalar) : Option Bool :=
  if !s.quoted && ["true", "True", "TRUE"].contains s.text then some true
  else if !s.quoted && ["false", "False", "FALSE"].contains s.text then some false
  else if ["y", "Y", "yes", "on"].contains s.text then some true
  else if ["n", "N", "no", "off"].contains s.text then some false
  else none

end Scalar

/-- What was read, and where reading goes on. -/
structure Reading where
  /-- The characters of the scalar. -/
  text : List Char
  /-- The characters that are left. -/
  rest : List Char
  /-- Where they start. -/
  mark : Mark
  /-- Line breaks stand before them. -/
  broken : Bool

/-- What stands between two words of a scalar. -/
inductive Space
  /-- Nothing: the word goes on. -/
  | nothing
  /-- Blanks in a line. -/
  | blanks (cs : List Char)
  /-- Line breaks: the first, unless it was escaped, and the others. -/
  | breaks (first : Option Char) (more : List Char)
deriving DecidableEq, Repr

namespace Space

/-- There is something. -/
def isSome : Space → Bool
  | nothing => false
  | _ => true

/-- There is a line break. -/
def isBroken : Space → Bool
  | breaks _ _ => true
  | _ => false

/-- One more blank; after a line break it is indentation. -/
def addBlank (c : Char) : Space → Space
  | nothing => blanks [c]
  | blanks cs => blanks (cs ++ [c])
  | s => s

/-- One more line break; blanks before it do not count. -/
def addBreak (c : Char) : Space → Space
  | breaks first more => breaks first (more ++ [c])
  | _ => breaks (some c) []

/-- The characters that stand for the space: a single break becomes a blank, and of several the
first is dropped. -/
def text : Space → List Char
  | nothing => []
  | blanks cs => cs
  | breaks none more => more
  | breaks (some c) more =>
    if c == '\n' then (if more.isEmpty then [' '] else more) else c :: more

/-- Appends the space and then `c` to a text that is held with its last character first. -/
def appendTo (s : Space) (text : List Char) (c : Char) : List Char := c :: (s.text.reverse ++ text)

end Space

/-- Characters that end a plain scalar inside brackets. -/
def flowIndicators : List Char := [',', '?', '[', ']', '\x7b', '\x7d']

/-- The character `c` before `cs` does not belong to a plain scalar. -/
def endsPlain (flow : Bool) (c : Char) (cs : List Char) : Bool :=
  (c == ':' && startsBlank cs) || (flow && flowIndicators.contains c)

/-- The text that starts at `m`, after a space, does not go on a plain scalar: it is not indented to
the column `least`, it is a document mark or a comment. -/
def stopsPlain (flow : Bool) (least : Nat) (s : Space) (m : Mark) (cs : List Char) : Bool :=
  (s.isBroken && !flow && m.column < least) || (m.column == 0 && startsDocumentMark cs) ||
    cs.head? == some '#'

/-- The rest of a plain scalar; `text` holds what was read, the last character first. A tab cannot
indent the lines of a scalar. -/
def readPlain (flow : Bool) (least : Nat) (text : List Char) (s : Space) (m : Mark) :
    List Char → Option Reading
  | [] => some ⟨text.reverse, [], m, s.isBroken⟩
  | c :: cs =>
    if isGap c then
      if s.isBroken && m.column < least && c == '\t' then none
      else readPlain flow least text (s.addBlank c) (m.right 1) cs
    else if isBreak c then readPlain flow least text (s.addBreak c) m.down cs
    else if (s.isSome && stopsPlain flow least s m (c :: cs)) || endsPlain flow c cs then
      some ⟨text.reverse, c :: cs, m, s.isBroken⟩
    else readPlain flow least (s.appendTo text c) .nothing (m.right 1) cs

/-- The characters that a letter after a backslash stands for. -/
def escapes : List (Char × Char) :=
  [('0', '\x00'), ('a', '\x07'), ('b', '\x08'), ('t', '\t'), ('\t', '\t'), ('n', '\n'),
    ('v', '\x0b'), ('f', '\x0c'), ('r', '\r'), ('e', '\x1b'), (' ', ' '), ('"', '"'),
    ('\x27', '\x27'), ('/', '/'), ('\\', '\\'), ('N', '\u0085'), ('_', '\u00a0'), ('L', '\u2028'),
    ('P', '\u2029')]

/-- The number of hexadecimal digits after a letter that follows a backslash. -/
def codeLength : Char → Option Nat
  | 'x' => some 2
  | 'u' => some 4
  | 'U' => some 8
  | _ => none

/-- The value of a hexadecimal digit. -/
def hexDigit? (c : Char) : Option Nat :=
  if '0' ≤ c && c ≤ '9' then some (c.toNat - '0'.toNat)
  else if 'a' ≤ c && c ≤ 'f' then some (c.toNat - 'a'.toNat + 10)
  else if 'A' ≤ c && c ≤ 'F' then some (c.toNat - 'A'.toNat + 10)
  else none

/-- What the next character of a quoted scalar means. -/
inductive Quoting
  /-- Itself. -/
  | plain
  /-- It follows a single quote, which it may double. -/
  | afterQuote
  /-- It follows a backslash. -/
  | afterBackslash
  /-- It is one of `left + 1` hexadecimal digits of a code that starts with `value`. -/
  | code (left value : Nat)

/-- The rest of a scalar in quotes; `text` holds what was read, the last character first. -/
def readQuoted (quote : Char) (q : Quoting) (text : List Char) (s : Space) (m : Mark) :
    List Char → Option Reading
  | [] =>
    match q with
    | .afterQuote => some ⟨text.reverse, [], m, false⟩
    | _ => none
  | c :: cs =>
    match q with
    | .afterQuote =>
      if c == quote then readQuoted quote .plain (c :: text) .nothing (m.right 1) cs
      else some ⟨text.reverse, c :: cs, m, false⟩
    | .afterBackslash =>
      if isBreak c then readQuoted quote .plain text (.breaks none []) m.down cs
      else
        match escapes.lookup c, codeLength c with
        | some x, _ => readQuoted quote .plain (x :: text) .nothing (m.right 1) cs
        | none, some n => readQuoted quote (.code (n - 1) 0) text .nothing (m.right 1) cs
        | none, none => none
    | .code left value =>
      match hexDigit? c with
      | none => none
      | some d =>
        let value := 16 * value + d
        if left = 0 then
          if value.isValidChar then
            readQuoted quote .plain (Char.ofNat value :: text) .nothing (m.right 1) cs
          else none
        else readQuoted quote (.code (left - 1) value) text .nothing (m.right 1) cs
    | .plain =>
      if isGap c then readQuoted quote .plain text (s.addBlank c) (m.right 1) cs
      else if isBreak c then readQuoted quote .plain text (s.addBreak c) m.down cs
      else if m.column == 0 && startsDocumentMark (c :: cs) then none
      else
        let before := s.text.reverse ++ text
        if c == quote then
          if quote == '\x27' then readQuoted quote .afterQuote before .nothing (m.right 1) cs
          else some ⟨before.reverse, cs, m.right 1, false⟩
        else if quote == '"' && c == '\\' then
          readQuoted quote .afterBackslash before .nothing (m.right 1) cs
        else readQuoted quote .plain (c :: before) .nothing (m.right 1) cs

/-- What becomes of the line breaks at the end of a block of lines. -/
inductive Chomping
  /-- One is kept. -/
  | clip
  /-- None is kept. -/
  | strip
  /-- All are kept. -/
  | keep
deriving DecidableEq, Repr

/-- The chomping that a text starts with. -/
def takeChomping : List Char → Chomping × List Char
  | '+' :: cs => (.keep, cs)
  | '-' :: cs => (.strip, cs)
  | cs => (.clip, cs)

/-- The indentation that a text starts with, zero if there is none; a written zero is refused. -/
def takeIndentation : List Char → Option (Nat × List Char)
  | [] => some (0, [])
  | c :: cs =>
    if c == '0' then none
    else if '1' ≤ c && c ≤ '9' then some (c.toNat - '0'.toNat, cs)
    else some (0, c :: cs)

/-- The chomping and the indentation of a block of lines, in either order, and what follows. -/
def takeHeader (cs : List Char) : Option (Chomping × Nat × List Char) := do
  let (before, cs) := takeChomping cs
  let (n, cs) ← takeIndentation cs
  if before = .clip ∧ 0 < n then
    let (after, cs) := takeChomping cs
    return (after, n, cs)
  else return (before, n, cs)

/-- A block of lines while it is read. -/
structure Block where
  /-- The column in which its lines start, if that is known. -/
  indent : Option Nat
  /-- The furthest column that the spaces before the first line reach. -/
  widest : Nat
  /-- What was read, the last character first. -/
  text : List Char
  /-- The break after the last line. -/
  lead : List Char
  /-- Further breaks. -/
  trail : List Char
  /-- The last line started with a blank, so it is not joined with the next. -/
  wasBlank : Bool
  /-- Reading is inside a line. -/
  inLine : Bool

namespace Block

/-- Starts a line with the character `c`; unless the lines stay as they are, a single break between
two of them becomes a blank. -/
def start (b : Block) (literal : Bool) (c : Char) : Block :=
  let folds := !literal && !b.wasBlank && !isGap c && b.lead == ['\n']
  let joint := if folds then (if b.trail.isEmpty then [' '] else []) else b.lead
  { b with
    text := c :: ((joint ++ b.trail).reverse ++ b.text)
    lead := []
    trail := []
    wasBlank := isGap c
    inLine := true }

/-- The text of a block of which all lines were read. -/
def finish (b : Block) (chomping : Chomping) : List Char :=
  b.text.reverse ++ (if chomping = .strip then [] else b.lead) ++
    if chomping = .keep then b.trail else []

end Block

/-- Reads the lines of a block; `least` is the least column they can start in. -/
def readLines (literal : Bool) (least : Nat) (chomping : Chomping) (b : Block) (m : Mark) :
    List Char → Option Reading
  | [] => some ⟨b.finish chomping, [], m, true⟩
  | c :: cs =>
    if b.inLine then
      if isBreak c then
        readLines literal least chomping { b with lead := [c], inLine := false } m.down cs
      else readLines literal least chomping { b with text := c :: b.text } (m.right 1) cs
    else if isBreak c then
      readLines literal least chomping { b with trail := b.trail ++ [c] } m.down cs
    else if isGap c && b.indent.all (m.column < ·) then
      if c == '\t' then none
      else
        let b := { b with widest := max b.widest (m.column + 1) }
        readLines literal least chomping b (m.right 1) cs
    else
      let column := b.indent.getD (max b.widest (max least 1))
      if m.column = column then
        let b := { b with indent := some column }.start literal c
        readLines literal least chomping b (m.right 1) cs
      else some ⟨b.finish chomping, c :: cs, m, true⟩

/-- The block of lines after a bar; `least` is the least column they can start in. -/
def readBlock (literal : Bool) (least : Nat) (m : Mark) (cs : List Char) : Option Reading := do
  let (chomping, n, cs) ← takeHeader cs
  let cs := cs.dropWhile isGap
  let cs := if cs.head? == some '#' then cs.dropWhile (!isBreak ·) else cs
  let indent := if n = 0 then none else some (least - 1 + n)
  let b : Block := ⟨indent, 0, [], [], [], false, false⟩
  match cs with
  | [] => some ⟨[], [], m, true⟩
  | c :: cs => if isBreak c then readLines literal least chomping b m.down cs else none

end Handheld.Config
