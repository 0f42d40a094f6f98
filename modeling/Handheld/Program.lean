import Handheld.Fault

/-!
# Programs

A program is parsed from its normalized text: the source is read, normalized and written out in
canonical form, and that form is read again and parsed. The places in a program therefore refer to
its normalized text.
-/

namespace Handheld

/-- A named program. -/
structure Program where
  /-- The name, empty for a line of the home screen. -/
  name : String
  /-- The text that was loaded. -/
  source : String
  /-- The statements in their order. -/
  statements : List Statement
deriving Repr

namespace Program

/-- The normalized text of a source. -/
def normalizedText (source : String) : Except Fault String := do
  let ts ← (Token.scan source).mapError .lex
  let ts ← (Token.normalize ts).mapError .normal
  return Token.render ts

/-- The tokens of the normalized text of a source. -/
def normalizedTokens (source : String) : Except Fault (List Token) := do
  let text ← normalizedText source
  (Token.scan text).mapError .lex

/-- The program with the given name and source. -/
def parse (name source : String) : Except Fault Program := do
  let ts ← normalizedTokens source
  let ss ← (Statement.ofTokens ts).mapError .parse
  return ⟨name, source, ss⟩

/-- The single expression that a text forms. -/
def parseExpression (text : String) : Except Fault Expr := do
  let ts ← normalizedTokens text
  (Expr.ofTokens ts).mapError .parse

end Program

end Handheld
