import Handheld.Decimal.Numeral
import Handheld.Token.Basic

/-!
# Reading tokens

A text is read from left to right. Blanks are skipped and a line break is a separator. At any other
character the longest symbol that starts there is read, in this order: string, number, list name,
program call, fixed spelling, numeric variable. A character that starts none of them is a fault.
-/

namespace Handheld

/-- Why no token can be read. -/
inductive LexCause
  /-- The exponent mark of a number has no digits after it. -/
  | badExponent (text : String)
  /-- The number is beyond the largest double. -/
  | tooLarge (text : String)
  /-- No name follows the word that calls a program. -/
  | missingProgramName
  /-- The character starts no symbol. -/
  | unexpected (c : Char)
deriving DecidableEq, Repr

/-- A fault in reading tokens, and where. -/
structure LexFault where
  /-- What is wrong. -/
  cause : LexCause
  /-- Where the symbol starts that cannot be read. -/
  position : Position
deriving DecidableEq, Repr

namespace LexFault

/-- The wording of the fault. -/
def message (f : LexFault) : String :=
  (match f.cause with
    | .badExponent t => s!"malformed exponent in number {t}"
    | .tooLarge t => s!"malformed number {t}"
    | .missingProgramName => "missing program name after prgm"
    | .unexpected c => s!"unexpected character {Text.quotedChar c}") ++ f.position.mark

end LexFault

namespace Symbol

/-- The functions of the language, without their parenthesis. -/
def functionNames : List String :=
  ["√", "abs", "sin", "cos", "tan", "sin⁻¹", "cos⁻¹", "tan⁻¹", "ln", "log", "e^", "int", "iPart",
    "fPart", "real", "imag", "conj", "angle", "not", "round", "dim", "sum", "prod", "min", "max"]

/-- The binary operators. -/
def binaryOps : List BinaryOp :=
  [.add, .subtract, .multiply, .divide, .power, .equal, .notEqual, .less, .greater, .lessEqual,
    .greaterEqual, .and, .or, .xor]

/-- The unary operators. -/
def unaryOps : List UnaryOp := [.negate, .square, .inverse, .factorial]

/-- The keywords. -/
def keywords : List Keyword :=
  [.cond, .consequent, .alternative, .whileLoop, .repeatLoop, .blockEnd, .stop, .ret, .display,
    .input, .prompt]

/-- The symbols that always have the same spelling. -/
def fixed : List Symbol :=
  [separator, comma, leftParen, rightParen, leftBrace, rightBrace, imaginaryUnit, pi, euler, ans,
    store] ++ binaryOps.map binary ++ unaryOps.map unary ++ keywords.map keyword ++
    functionNames.map function

/-- Other spellings of some symbols. -/
def alternatives : List (String × Symbol) :=
  [("->", store), ("×", binary .multiply), ("÷", binary .divide), ("⁻", unary .negate),
    ("!=", binary .notEqual), ("<=", binary .lessEqual), (">=", binary .greaterEqual)]

/-- All fixed spellings with their symbols. -/
def spellings : List (List Char × Symbol) :=
  fixed.map (fun s => (s.text.toList, s)) ++ alternatives.map fun (t, s) => (t.toList, s)

/-- The longer of two spellings; the first of two equally long ones. -/
def longer (a b : List Char × Symbol) : List Char × Symbol :=
  if a.1.length < b.1.length then b else a

/-- The longest fixed spelling at the start of a text. -/
def longestSpelling (cs : List Char) : Option (List Char × Symbol) :=
  match spellings.filter (·.1.isPrefixOf cs) with
  | [] => none
  | s :: ss => some (ss.foldl longer s)

/-- A character that ends a string literal. -/
def endsString (c : Char) : Bool := c == '"' || c == '\n' || c == '→'

/-- The string literal whose content starts with `cs`; a closing quote belongs to it. -/
def readString (cs : List Char) : Symbol × Nat :=
  let content := cs.takeWhile (!endsString ·)
  let closed := (cs.drop content.length).head? == some '"'
  (string (String.ofList content), content.length + if closed then 1 else 0)

/-- A number starts with a digit, or with a point before a digit. -/
def startsNumber (c : Char) (cs : List Char) : Bool :=
  Name.isDigit c || (c == '.' && cs.head?.any Name.isDigit)

/-- The number at the start of a text. -/
def readNumber (cs : List Char) : Except LexCause (Symbol × Nat) :=
  let n := Numeral.scan cs
  let t := String.ofList n.chars
  if n.wellFormed then
    match n.value? with
    | some x => .ok (number t x, n.chars.length - 1)
    | none => .error (.tooLarge t)
  else .error (.badExponent t)

/-- The list name at the start of a text: one subscript digit, or a run of name characters. -/
def listName : List Char → List Char
  | [] => []
  | c :: cs =>
    if Name.isSubscript c then [c] else (c :: cs).takeWhile Name.isNameChar

/-- The subscript of a digit. -/
def subscript (c : Char) : Char := Char.ofNat (c.toNat - '0'.toNat + '₀'.toNat)

/-- The built-in list that follows the letter `L`: a subscript digit, or one of the digits 1 to 6 that
is not the start of a longer number. -/
def builtinList : List Char → Option Char
  | [] => none
  | c :: cs =>
    if Name.isSubscript c then some c
    else if '1' ≤ c && c ≤ '6' && !cs.head?.any (fun d => Name.isDigit d || d == '.') then
      some (subscript c)
    else none

/-- The word that calls a program. -/
def programWord : List Char := ['p', 'r', 'g', 'm']

/-- The program call, fixed spelling or numeric variable that starts with `c`. -/
def readWord (c : Char) (cs : List Char) : Except LexCause (Symbol × Nat) :=
  if programWord.isPrefixOf (c :: cs) then
    let name := (cs.drop 3).takeWhile Name.isNameChar
    if name.isEmpty then .error .missingProgramName
    else .ok (program (String.ofList name), 3 + name.length)
  else
    match longestSpelling (c :: cs) with
    | some (spelling, s) => .ok (s, spelling.length - 1)
    | none => if Name.isLetter c then .ok (var c, 0) else .error (.unexpected c)

/-- The symbol that starts with the character `c`, and how many characters of `cs` belong to it. -/
def read (c : Char) (cs : List Char) : Except LexCause (Symbol × Nat) :=
  if c == '\n' then .ok (separator, 0)
  else if c == '"' then .ok (readString cs)
  else if startsNumber c cs then readNumber (c :: cs)
  else if c == Name.listMarker then
    let name := listName cs
    .ok (list (String.ofList name), name.length)
  else if c == 'L' then
    match builtinList cs with
    | some sub => .ok (list sub.toString, 1)
    | none => readWord c cs
  else readWord c cs

end Symbol

namespace Token

/-- Blanks between tokens. -/
def isSpace (c : Char) : Bool := c == ' ' || c == '\t' || c == '\r'

/-- The tokens of a text whose first character stands at `p`. -/
def scanFrom (p : Position) : List Char → Except LexFault (List Token)
  | [] => .ok []
  | c :: cs =>
    if isSpace c then scanFrom (p.right 1) cs
    else
      match Symbol.read c cs with
      | .error cause => .error ⟨cause, p⟩
      | .ok (s, n) =>
        let next := if c == '\n' then p.nextLine else p.right (n + 1)
        match scanFrom next (cs.drop n) with
        | .error f => .error f
        | .ok ts => .ok (⟨s, p⟩ :: ts)
termination_by cs => cs.length
decreasing_by
  all_goals
    simp only [List.length_drop, List.length_cons]
    omega

/-- The tokens of a text. -/
def scan (text : String) : Except LexFault (List Token) :=
  scanFrom Position.start text.toList

end Token

end Handheld
