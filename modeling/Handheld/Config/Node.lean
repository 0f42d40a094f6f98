import Handheld.Config.Lexeme

/-!
# Configuration documents

A document is a tree of scalars, lists and mappings. Only the first document of a file is read, and
it is over as soon as its tree is: what follows has no meaning, and its faults matter only if they
stand so near that they are met while the end of the tree is found.
-/

namespace Handheld.Config

/-- A part of a document. -/
inductive Node
  /-- A scalar. -/
  | scalar (s : Scalar)
  /-- A list. -/
  | list (items : List Node)
  /-- A mapping, in the order of its entries. -/
  | mapping (entries : List (Node × Node))

namespace Node

/-- What stands where nothing is written. -/
def missing : Node := .scalar .missing

mutual

/-- Reads a node. Only in a `block` can it be a block itself; with `indentless` it can be a list
whose dashes are not indented. -/
def read : Nat → Bool → Bool → List Lexeme → Option (Node × List Lexeme)
  | 0, _, _, _ => none
  | fuel + 1, block, indentless, xs =>
    match xs with
    | .scalar s :: xs => some (.scalar s, xs)
    | .openBracket :: xs => (readFlowItems fuel true xs).map fun (ns, xs) => (.list ns, xs)
    | .openBrace :: xs => (readFlowEntries fuel true xs).map fun (es, xs) => (.mapping es, xs)
    | .listStart :: xs =>
      if block then (readItems fuel xs).map fun (ns, xs) => (.list ns, xs) else none
    | .mappingStart :: xs =>
      if block then (readEntries fuel xs).map fun (es, xs) => (.mapping es, xs) else none
    | .item :: xs =>
      if indentless then
        (readIndentless fuel (.item :: xs)).map fun (ns, xs) => (.list ns, xs)
      else none
    | _ => none

/-- Reads a node, or nothing before one of the lexemes `stops`. -/
def readUnless : Nat → List Lexeme → Bool → Bool → List Lexeme → Option (Node × List Lexeme)
  | 0, _, _, _, _ => none
  | fuel + 1, stops, block, indentless, xs =>
    match xs with
    | [] => none
    | x :: xs =>
      if stops.contains x then some (missing, x :: xs) else read fuel block indentless (x :: xs)

/-- Reads the value of an entry, if its colon is there. -/
def readValue : Nat → List Lexeme → Bool → List Lexeme → Option (Node × List Lexeme)
  | 0, _, _, _ => none
  | fuel + 1, stops, block, xs =>
    match xs with
    | [] => none
    | .value :: xs => readUnless fuel stops block block xs
    | xs => some (missing, xs)

/-- Reads the entries of a mapping up to its end. -/
def readEntries : Nat → List Lexeme → Option (List (Node × Node) × List Lexeme)
  | 0, _ => none
  | fuel + 1, xs =>
    match xs with
    | .key :: xs => do
      let stops := [Lexeme.key, .value, .blockEnd]
      let (k, xs) ← readUnless fuel stops true true xs
      let (v, xs) ← readValue fuel stops true xs
      let (more, xs) ← readEntries fuel xs
      return ((k, v) :: more, xs)
    | .blockEnd :: xs => some ([], xs)
    | _ => none

/-- Reads the items of a list up to its end. -/
def readItems : Nat → List Lexeme → Option (List Node × List Lexeme)
  | 0, _ => none
  | fuel + 1, xs =>
    match xs with
    | .item :: xs => do
      let (n, xs) ← readUnless fuel [.item, .blockEnd] true false xs
      let (more, xs) ← readItems fuel xs
      return (n :: more, xs)
    | .blockEnd :: xs => some ([], xs)
    | _ => none

/-- Reads the items of a list that is not indented and so has no end of its own. -/
def readIndentless : Nat → List Lexeme → Option (List Node × List Lexeme)
  | 0, _ => none
  | fuel + 1, xs =>
    match xs with
    | [] => none
    | .item :: xs => do
      let (n, xs) ← readUnless fuel [.item, .key, .value, .blockEnd] true false xs
      let (more, xs) ← readIndentless fuel xs
      return (n :: more, xs)
    | xs => some ([], xs)

/-- Reads the items of a list in brackets; a comma stands before each but the first. An item may be
a mapping with one entry. -/
def readFlowItems : Nat → Bool → List Lexeme → Option (List Node × List Lexeme)
  | 0, _, _ => none
  | fuel + 1, first, xs =>
    match first, xs with
    | _, .closeBracket :: xs => some ([], xs)
    | false, .comma :: xs => readFlowItem fuel xs
    | false, _ => none
    | true, xs => readFlowItem fuel xs

/-- Reads an item of a list in brackets and those after it. -/
def readFlowItem : Nat → List Lexeme → Option (List Node × List Lexeme)
  | 0, _ => none
  | fuel + 1, xs =>
    match xs with
    | .closeBracket :: xs => some ([], xs)
    | .key :: xs => do
      let (k, xs) ← readUnless fuel [.value, .comma, .closeBracket] false false xs
      let (v, xs) ← readValue fuel [.comma, .closeBracket] false xs
      let (more, xs) ← readFlowItems fuel false xs
      return (.mapping [(k, v)] :: more, xs)
    | xs => do
      let (n, xs) ← read fuel false false xs
      let (more, xs) ← readFlowItems fuel false xs
      return (n :: more, xs)

/-- Reads the entries of a mapping in braces; a comma stands before each but the first. -/
def readFlowEntries : Nat → Bool → List Lexeme → Option (List (Node × Node) × List Lexeme)
  | 0, _, _ => none
  | fuel + 1, first, xs =>
    match first, xs with
    | _, .closeBrace :: xs => some ([], xs)
    | false, .comma :: xs => readFlowEntry fuel xs
    | false, _ => none
    | true, xs => readFlowEntry fuel xs

/-- Reads an entry of a mapping in braces and those after it. A key without a colon has no value. -/
def readFlowEntry : Nat → List Lexeme → Option (List (Node × Node) × List Lexeme)
  | 0, _ => none
  | fuel + 1, xs =>
    match xs with
    | .closeBrace :: xs => some ([], xs)
    | .key :: xs => do
      let (k, xs) ← readUnless fuel [.value, .comma, .closeBrace] false false xs
      let (v, xs) ← readValue fuel [.comma, .closeBrace] false xs
      let (more, xs) ← readFlowEntries fuel false xs
      return ((k, v) :: more, xs)
    | xs => do
      let (k, xs) ← read fuel false false xs
      let (more, xs) ← readFlowEntries fuel false xs
      return ((k, missing) :: more, xs)

end

/-- The tree that some lexemes start with. It counts only if it is seen what follows it. -/
def complete? : Option (Node × List Lexeme) → Option Node
  | some (n, _ :: _) => some n
  | _ => none

/-- The first document of a file; there is none if nothing is in the file. -/
def ofLexemes? (xs : List Lexeme) : Option (Option Node) :=
  let fuel := 4 * xs.length + 4
  match xs with
  | [] => none
  | .fileEnd :: _ => some none
  | .documentStart :: xs =>
    (complete? (readUnless fuel [.documentStart, .documentEnd, .fileEnd] true false xs)).map some
  | xs => (complete? (read fuel true false xs)).map some

/-- Every way to break a line, but for the two separators, as one character. -/
def unifyBreaks : List Char → List Char
  | '\r' :: '\n' :: cs => '\n' :: unifyBreaks cs
  | c :: cs => (if c == '\r' || c == '\u0085' then '\n' else c) :: unifyBreaks cs
  | [] => []

/-- A character that a file can hold. -/
def isAllowed (c : Char) : Bool :=
  c == '\t' || c == '\n' || c == '\r' || (' ' ≤ c && c ≤ '~') || c == '\u0085' ||
    ('\u00a0' ≤ c && c != '\ufffe' && c != '\uffff')

/-- A text without the mark of its byte order. -/
def dropByteOrder : List Char → List Char
  | '\ufeff' :: cs => cs
  | cs => cs

/-- The first document of a text. -/
def ofText? (text : String) : Option (Option Node) :=
  let cs := dropByteOrder text.toList
  if cs.all isAllowed then ofLexemes? (Lexeme.all (unifyBreaks cs)) else none

end Node

end Handheld.Config
