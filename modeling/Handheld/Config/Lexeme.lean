import Handheld.Config.Scalar

/-!
# Lexemes of a configuration file

A file is cut into lexemes. Indentation opens and closes blocks, so lexemes for the start and the
end of a block are put in where the text has none; brackets suspend this. Whether something is a
key is known only at the colon after it, so the lexer remembers where a key may have started.
-/

namespace Handheld.Config

/-- A unit of a configuration file. -/
inductive Lexeme
  /-- Three dashes. -/
  | documentStart
  /-- Three dots. -/
  | documentEnd
  /-- The end of the file. -/
  | fileEnd
  /-- The start of a list whose items have lines of their own. -/
  | listStart
  /-- The start of a mapping whose keys have lines of their own. -/
  | mappingStart
  /-- The end of such a list or mapping. -/
  | blockEnd
  | openBracket
  | closeBracket
  | openBrace
  | closeBrace
  | comma
  /-- A dash before an item. -/
  | item
  /-- Stands before a key. -/
  | key
  /-- The colon before a value. -/
  | value
  | scalar (s : Scalar)
deriving DecidableEq, Repr

/-- Something that becomes a key if a colon follows. -/
structure Candidate where
  /-- The index of its first lexeme. -/
  index : Nat
  /-- Where it starts. -/
  mark : Mark
  /-- It must become a key. -/
  required : Bool

namespace Candidate

/-- The number of characters that a key can have. -/
def maxLength : Nat := 1024

/-- At the place `m` it is still in its line and not too far back. -/
def isFresh (k : Candidate) (m : Mark) : Bool :=
  m.line ≤ k.mark.line && m.column ≤ k.mark.column + maxLength

end Candidate

/-- A file while it is cut. -/
structure Lexer where
  /-- The characters that are left. -/
  rest : List Char
  /-- Where they start. -/
  mark : Mark
  /-- The lexemes so far. -/
  lexemes : Array Lexeme
  /-- For each open block, the innermost first, the column after its own: the least one for what
  belongs to an entry of it. -/
  floors : List Nat
  /-- The possible key inside the innermost brackets. -/
  candidate : Option Candidate
  /-- The possible keys outside of each pair of open brackets, the innermost first. -/
  outer : List (Option Candidate)
  /-- A key can start here. -/
  keyAllowed : Bool
  /-- A comment here would belong to the lexeme before it. -/
  trailing : Bool

/-- A step of the lexer, which may fail. -/
abbrev Lexing := StateT Lexer Option

namespace Lexer

/-- The lexer at the start of a text. -/
def new (cs : List Char) : Lexer := ⟨cs, ⟨0, 0⟩, #[], [], none, [], true, false⟩

/-- Inside brackets. -/
def inFlow (l : Lexer) : Bool := !l.outer.isEmpty

/-- The least column for what belongs to an entry of the innermost block. -/
def floor (l : Lexer) : Nat := l.floors.headD 0

/-- The next thing that is neither blank nor line break is a comment. -/
def leadsToComment (cs : List Char) : Bool :=
  (cs.dropWhile fun c => isGap c || isBreak c).head? == some '#'

/-- Where blanks are passed over. -/
inductive Passing
  /-- Between lexemes. -/
  | blanks
  /-- In a comment. -/
  | comment
  /-- Between comments that have lines of their own. -/
  | betweenComments
deriving DecidableEq

/-- Passes over blanks, line breaks and comments. A tab is no blank where a key could start, except
between comments. Outside of brackets a key can start in a new line. -/
def passFrom (p : Passing) (l : Lexer) (m : Mark) : List Char → Lexer
  | [] => { l with rest := [], mark := m }
  | c :: cs =>
    if isBreak c then
      let p :=
        match p with
        | .comment => if !l.trailing && leadsToComment cs then .betweenComments else .blanks
        | p => p
      passFrom p { l with keyAllowed := l.keyAllowed || !l.inFlow, trailing := false } m.down cs
    else if p = .comment then passFrom p l (m.right 1) cs
    else if c == '#' then passFrom .comment l (m.right 1) cs
    else if c == ' ' || (c == '\t' && (l.inFlow || !l.keyAllowed || p = .betweenComments)) then
      passFrom p l (m.right 1) cs
    else { l with rest := c :: cs, mark := m }

/-- Passes over everything before the next lexeme. -/
def pass : Lexing Unit := modify fun l => passFrom .blanks l l.mark l.rest

/-- Appends a lexeme without a character of its own. -/
def put (x : Lexeme) : Lexing Unit := modify fun l => { l with lexemes := l.lexemes.push x }

/-- Appends a lexeme that is written with the next `n` characters of a line. -/
def take (n : Nat) (x : Lexeme) : Lexing Unit :=
  modify fun l =>
    { l with
      rest := l.rest.drop n
      mark := l.mark.right n
      lexemes := l.lexemes.push x
      trailing := true }

/-- Says whether a key can follow. -/
def allowKey (b : Bool) : Lexing Unit := modify fun l => { l with keyAllowed := b }

/-- Ends the open blocks whose floor is above `least`. -/
def closeBlocks (least : Nat) : Lexing Unit :=
  modify fun l =>
    if l.inFlow then l
    else
      let closed := l.floors.takeWhile (least < ·)
      { l with
        floors := l.floors.drop closed.length
        lexemes := closed.foldl (fun xs _ => xs.push .blockEnd) l.lexemes }

/-- Starts a block with the lexeme `x` in a column further right than the innermost one; the lexeme
goes before that with the index `i`. -/
def openBlock (x : Lexeme) (column i : Nat) : Lexing Unit :=
  modify fun l =>
    if !l.inFlow && l.floor ≤ column then
      { l with
        floors := (column + 1) :: l.floors
        lexemes := l.lexemes.insertIdxIfInBounds i x }
    else l

/-- Gives up the possible key; one that must become a key cannot be given up. -/
def dropCandidate : Lexing Unit := do
  if (← get).candidate.any (·.required) then failure
  modify fun l => { l with candidate := none }

/-- Remembers that a key may start here. It must be one if it starts in the column of the block. -/
def markCandidate : Lexing Unit := do
  if (← get).keyAllowed then
    dropCandidate
    modify fun l =>
      let required := !l.inFlow && l.floor == l.mark.column + 1
      { l with candidate := some ⟨l.lexemes.size, l.mark, required⟩ }

/-- The possible key, if it can still be one. -/
def freshCandidate? : Lexing (Option Candidate) := do
  let l ← get
  match l.candidate with
  | none => return none
  | some k =>
    if k.isFresh l.mark then return some k
    else
      dropCandidate
      return none

/-- The start or the end of a document. -/
def documentMark (x : Lexeme) : Lexing Unit := do
  closeBlocks 0
  dropCandidate
  allowKey false
  take 3 x
  modify fun l => { l with trailing := false }

/-- The end of the file. -/
def endFile : Lexing Unit := do
  closeBlocks 0
  dropCandidate
  allowKey false
  put .fileEnd

/-- An opening bracket or brace, which may itself start a key. -/
def openFlow (x : Lexeme) : Lexing Unit := do
  markCandidate
  modify fun l => { l with outer := l.candidate :: l.outer, candidate := none }
  allowKey true
  take 1 x

/-- A closing bracket or brace. -/
def closeFlow (x : Lexeme) : Lexing Unit := do
  dropCandidate
  modify fun l => { l with candidate := l.outer.headD none, outer := l.outer.tail }
  allowKey false
  take 1 x

/-- A comma. -/
def comma : Lexing Unit := do
  dropCandidate
  allowKey true
  take 1 .comma

/-- The dash of an item. -/
def item : Lexing Unit := do
  let l ← get
  if !l.inFlow then
    if !l.keyAllowed then failure
    openBlock .listStart l.mark.column l.lexemes.size
  dropCandidate
  allowKey true
  take 1 .item
  modify fun l => { l with trailing := false }

/-- The question mark before a key. -/
def markedKey : Lexing Unit := do
  let l ← get
  if !l.inFlow then
    if !l.keyAllowed then failure
    openBlock .mappingStart l.mark.column l.lexemes.size
  dropCandidate
  allowKey (!l.inFlow)
  take 1 .key

/-- The colon before a value, which makes a key of what stands before it. -/
def value : Lexing Unit := do
  let l ← get
  match ← freshCandidate? with
  | some k =>
    modify fun l =>
      { l with lexemes := l.lexemes.insertIdxIfInBounds k.index .key, candidate := none }
    openBlock .mappingStart k.mark.column k.index
    allowKey false
  | none =>
    if !l.inFlow then
      if !l.keyAllowed then failure
      openBlock .mappingStart l.mark.column l.lexemes.size
    allowKey (!l.inFlow)
  take 1 .value

/-- A scalar that was read. -/
def putScalar (r : Option Reading) (quoted : Bool) : Lexing Unit := do
  match r with
  | none => failure
  | some r =>
    put (.scalar ⟨String.ofList r.text, quoted⟩)
    modify fun l =>
      { l with
        rest := r.rest
        mark := r.mark
        keyAllowed := l.keyAllowed || r.broken
        trailing := !r.broken }

/-- A plain scalar. -/
def plain : Lexing Unit := do
  markCandidate
  allowKey false
  let l ← get
  putScalar (readPlain l.inFlow l.floor [] .nothing l.mark l.rest) false

/-- A scalar in quotes. -/
def quoted (quote : Char) : Lexing Unit := do
  markCandidate
  allowKey false
  let l ← get
  putScalar (readQuoted quote .plain [] .nothing (l.mark.right 1) (l.rest.drop 1)) true

/-- A block of lines. -/
def block (literal : Bool) : Lexing Unit := do
  dropCandidate
  allowKey true
  let l ← get
  putScalar (readBlock literal l.floor l.mark (l.rest.drop 1)) true

/-- Characters that no plain scalar starts with. -/
def indicators : List Char :=
  ['-', '?', ':', ',', '[', ']', '\x7b', '\x7d', '#', '&', '*', '!', '|', '>', '\x27', '"', '%',
    '@', '\x60', '\t']

/-- A plain scalar can start with `c` before `cs`: no indicator, or one that another character
follows. -/
def startsPlain (flow : Bool) (c : Char) (cs : List Char) : Bool :=
  !indicators.contains c || (c == '-' && !startsBlank cs) ||
    (!flow && (c == '?' || c == ':') && !startsBlank cs)

/-- The lexeme that starts with `c`, before `cs`. Names for values, references to them, kinds and
directives are refused. -/
def lexeme (c : Char) (cs : List Char) : Lexing Unit := do
  let l ← get
  let marked := l.inFlow || startsBlank cs
  if l.mark.column == 0 && startsTriple '-' (c :: cs) then documentMark .documentStart
  else if l.mark.column == 0 && startsTriple '.' (c :: cs) then documentMark .documentEnd
  else if c == '[' then openFlow .openBracket
  else if c == '\x7b' then openFlow .openBrace
  else if c == ']' then closeFlow .closeBracket
  else if c == '\x7d' then closeFlow .closeBrace
  else if c == ',' then comma
  else if c == '-' && startsBlank cs then item
  else if c == '?' && marked then markedKey
  else if c == ':' && marked then value
  else if c == '|' && !l.inFlow then block true
  else if c == '>' && !l.inFlow then block false
  else if c == '\x27' || c == '"' then quoted c
  else if startsPlain l.inFlow c cs then plain
  else failure

/-- Finds the next lexeme and says whether the file goes on after it. -/
def next : Lexing Bool := do
  pass
  let l ← get
  closeBlocks (l.mark.column + 1)
  match l.rest with
  | [] =>
    endFile
    return false
  | c :: cs =>
    lexeme c cs
    return true

/-- How many lexemes after one have to be known before it can be used. -/
def lookahead : Nat := 2

/-- The lexemes that can be used before the next one is found: enough of them follow, and none is
or comes after something that may yet become a key. -/
def usable (l : Lexer) : List Lexeme :=
  let undecided := ((l.candidate :: l.outer).filterMap id).filter (·.isFresh l.mark)
  l.lexemes.toList.take ((undecided.map (·.index)).foldl min (l.lexemes.size - lookahead))

/-- The lexemes of a file after at most `n` steps. If a step fails, they end with the last one that
could be used before it. -/
def run : Nat → Lexer → List Lexeme
  | 0, l => l.usable
  | n + 1, l =>
    match next l with
    | none => l.usable
    | some (true, l) => run n l
    | some (false, l) => l.lexemes.toList

end Lexer

namespace Lexeme

/-- The lexemes of a text. Every step but the last uses up a character. -/
def all (cs : List Char) : List Lexeme := Lexer.run (cs.length + 1) (Lexer.new cs)

end Lexeme

end Handheld.Config
