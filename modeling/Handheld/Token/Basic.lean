import Handheld.Name
import Handheld.Operator
import Handheld.Position

/-!
# Tokens

A token is a symbol of the language at a place in a text. Every symbol has a canonical spelling,
which is what a normalized program is written in, and a description for messages.
-/

namespace Handheld

/-- The words that start or shape a statement. -/
inductive Keyword
  /-- `If` -/
  | cond
  /-- `Then` -/
  | consequent
  /-- `Else` -/
  | alternative
  /-- `While` -/
  | whileLoop
  /-- `Repeat` -/
  | repeatLoop
  /-- `End` -/
  | blockEnd
  /-- `Stop` -/
  | stop
  /-- `Return` -/
  | ret
  /-- `Disp` -/
  | display
  /-- `Input` -/
  | input
  /-- `Prompt` -/
  | prompt
deriving DecidableEq, Repr

namespace Keyword

/-- The spelling of a keyword. -/
def text : Keyword → String
  | cond => "If"
  | consequent => "Then"
  | alternative => "Else"
  | whileLoop => "While"
  | repeatLoop => "Repeat"
  | blockEnd => "End"
  | stop => "Stop"
  | ret => "Return"
  | display => "Disp"
  | input => "Input"
  | prompt => "Prompt"

end Keyword

/-- A symbol of the language. -/
inductive Symbol
  /-- The end of a statement: a colon or a line break. -/
  | separator
  | comma
  | leftParen
  | rightParen
  | leftBrace
  | rightBrace
  /-- A number literal, as it is written, with its value. -/
  | number (text : String) (value : Float)
  | imaginaryUnit
  | pi
  | euler
  /-- A string literal, without its quotes. -/
  | string (content : String)
  /-- A numeric variable. -/
  | var (name : Char)
  /-- A list variable, without its marker. -/
  | list (name : String)
  /-- The last result. -/
  | ans
  /-- A function with its opening parenthesis. -/
  | function (name : String)
  /-- A call of a program. -/
  | program (name : String)
  /-- The arrow that stores a value. -/
  | store
  | binary (op : BinaryOp)
  | unary (op : UnaryOp)
  | keyword (k : Keyword)
deriving DecidableEq, Repr

namespace Symbol

/-- The canonical spelling. -/
def text : Symbol → String
  | separator => ":"
  | comma => ","
  | leftParen => "("
  | rightParen => ")"
  | leftBrace => "\x7b"
  | rightBrace => "\x7d"
  | number t _ => t
  | imaginaryUnit => "i"
  | pi => "π"
  | euler => "e"
  | string s => "\"" ++ s ++ "\""
  | var c => c.toString
  | list n => Name.listMarker.toString ++ n
  | ans => "Ans"
  | function n => n ++ "("
  | program n => "prgm" ++ n
  | store => "→"
  | binary op => op.symbol
  | unary op => op.symbol
  | keyword k => k.text

/-- The kind of symbol, as messages name it: a class word, or the spelling between quotes. -/
def kind : Symbol → String
  | number _ _ => "number literal"
  | string _ => "string literal"
  | var _ => "variable"
  | list _ => "list variable"
  | function _ => "function"
  | program _ => "program call"
  | s => "'" ++ s.text ++ "'"

/-- The symbol as messages show it. -/
def describe (s : Symbol) : String :=
  match s with
  | number _ _ | string _ | var _ | list _ | function _ | program _ => s.kind ++ " " ++ s.text
  | _ => s.kind

/-- A value can end with this symbol. -/
def endsValue : Symbol → Bool
  | number _ _ | imaginaryUnit | pi | euler | var _ | list _ | ans | rightParen | rightBrace => true
  | unary op => op.isTrailing
  | _ => false

/-- A value can start with this symbol. -/
def startsValue : Symbol → Bool
  | number _ _ | imaginaryUnit | pi | euler | var _ | list _ | ans | leftParen | leftBrace
  | function _ => true
  | unary op => !op.isTrailing
  | _ => false

/-- A number literal. -/
def isNumber : Symbol → Bool
  | number _ _ => true
  | _ => false

end Symbol

/-- A symbol at a place. -/
structure Token where
  /-- What stands there. -/
  symbol : Symbol
  /-- Where its first character stands. -/
  position : Position
deriving DecidableEq, Repr

namespace Token

/-- The token as messages show it. -/
def describe (t : Token) : String := t.symbol.describe ++ t.position.mark

/-- The pieces of a token list between its separators, empty ones included. -/
def statements : List Token → List (List Token)
  | [] => [[]]
  | t :: ts =>
    if t.symbol = .separator then [] :: statements ts
    else
      match statements ts with
      | [] => [[t]]
      | piece :: pieces => (t :: piece) :: pieces

end Token

end Handheld
