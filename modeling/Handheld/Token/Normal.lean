import Handheld.Token.Basic

/-!
# Normal token lists

Normalization makes implicit multiplication explicit, closes the brackets that a statement leaves
open, and refuses what no statement may hold: closers without an opener, a list inside a list
literal, and list names that are none. It reads the tokens once, keeping the open brackets and the
symbol it wrote last.
-/

namespace Handheld

/-- An open bracket. -/
inductive Bracket
  /-- A parenthesis, of a group or of a function. -/
  | paren
  /-- The brace of a list literal. -/
  | brace
deriving DecidableEq, Repr

namespace Bracket

/-- The symbol that closes a bracket. -/
def closer : Bracket → Symbol
  | paren => .rightParen
  | brace => .rightBrace

end Bracket

/-- Why a token cannot stand where it does. -/
inductive NormalCause
  /-- The name of a list variable is no list name. -/
  | listName (f : ListNameFault)
  /-- A list variable inside a list literal. -/
  | listInList
  /-- A list literal inside a list literal. -/
  | nestedList
  /-- A closing parenthesis that closes nothing. -/
  | unmatchedParen
  /-- A closing brace that closes nothing. -/
  | unmatchedBrace
deriving DecidableEq, Repr

/-- A fault of normalization, at a token. -/
structure NormalFault where
  /-- What is wrong. -/
  cause : NormalCause
  /-- The token that is refused. -/
  token : Token
deriving DecidableEq, Repr

namespace NormalFault

/-- The wording of the fault. -/
def message (f : NormalFault) : String :=
  (match f.cause with
    | .listName g => g.message
    | .listInList => "list variable inside a list literal"
    | .nestedList => "nested list literal"
    | .unmatchedParen => "unmatched closing parenthesis"
    | .unmatchedBrace => "unmatched closing brace") ++
    ": " ++ f.token.symbol.text ++ f.token.position.mark

end NormalFault

namespace Token

/-- A multiplication sign is understood between two symbols: the first ends a value, the second starts
one, and they are not two number literals. -/
def impliesProduct (a b : Symbol) : Bool :=
  a.endsValue && b.startsValue && !(a.isNumber && b.isNumber)

/-- What a symbol does to the open brackets, innermost first: those it closes although no closer is
written, and those that are open after it. -/
def bracketing (opened : List Bracket) : Symbol → Except NormalCause (List Bracket × List Bracket)
  | .list name =>
    match Name.checkList name with
    | .error f => .error (.listName f)
    | .ok () => if opened.contains .brace then .error .listInList else .ok ([], opened)
  | .leftBrace =>
    if opened.contains .brace then .error .nestedList else .ok ([], .brace :: opened)
  | .leftParen | .function _ => .ok ([], .paren :: opened)
  | .rightParen =>
    match opened with
    | .paren :: outer => .ok ([], outer)
    | _ => .error .unmatchedParen
  | .rightBrace =>
    match opened.dropWhile (· == .paren) with
    | .brace :: outer => .ok (opened.takeWhile (· == .paren), outer)
    | _ => .error .unmatchedBrace
  | .store | .separator => .ok (opened, [])
  | _ => .ok ([], opened)

/-- The closers of some brackets, all at one place. -/
def closers (bs : List Bracket) (p : Position) : List Token :=
  bs.map fun b => ⟨b.closer, p⟩

/-- Normalizes the tokens after `last`, with `opened` brackets. -/
def normalizeFrom (last : Option Token) (opened : List Bracket) :
    List Token → Except NormalFault (List Token)
  | [] => .ok (match last with | some l => closers opened l.position | none => [])
  | t :: ts =>
    match bracketing opened t.symbol with
    | .error cause => .error ⟨cause, t⟩
    | .ok (closed, opened) =>
      match normalizeFrom (some t) opened ts with
      | .error f => .error f
      | .ok rest =>
        let product :=
          if last.any (impliesProduct ·.symbol t.symbol) then
            [⟨.binary .multiply, t.position⟩]
          else []
        .ok (product ++ closers closed t.position ++ t :: rest)

/-- The normal form of a token list. -/
def normalize (ts : List Token) : Except NormalFault (List Token) :=
  normalizeFrom none [] ts

/-- The canonical text of a token list: blanks between tokens and colons between statements. -/
def render (ts : List Token) : String :=
  ":".intercalate ((statements ts).map fun piece => " ".intercalate (piece.map (·.symbol.text)))

end Token

end Handheld
