import Handheld.Number.Text

/-!
# Values

A value is a number, a list of numbers or a string. Where a value may be missing, the missing one
has a kind and a text of its own, so that messages can name it.
-/

namespace Handheld

/-- The kinds of values; `none` is the kind of a missing one. -/
inductive Kind
  | none | number | list | string
deriving DecidableEq, Repr

namespace Kind

/-- The name of a kind. -/
def text : Kind → String
  | none => "None"
  | number => "Number"
  | list => "List"
  | string => "String"

end Kind

/-- A value of the language. -/
inductive Value
  | number (z : Number)
  | list (zs : List Number)
  | string (s : String)
deriving DecidableEq, Repr

namespace Value

/-- The largest number of elements of a list. -/
def maxListLength : Nat := 999

/-- The kind of a value. -/
def kind : Value → Kind
  | number _ => .number
  | list _ => .list
  | string _ => .string

/-- The text of a value as the home screen shows it. -/
def text : Value → String
  | number z => z.text
  | list zs => "\x7b" ++ " ".intercalate (zs.map (·.text)) ++ "\x7d"
  | string s => s

/-- Numbers and lists take part in arithmetic. -/
def isNumeric : Value → Bool
  | number _ | list _ => true
  | string _ => false

/-- The lists have the same length and equal elements at each place. -/
def equalLists : List Number → List Number → Bool
  | [], [] => true
  | a :: as, b :: bs => a.equals b && equalLists as bs
  | _, _ => false

/-- Two values hold the same data. -/
def equals : Value → Value → Bool
  | number a, number b => a.equals b
  | list as, list bs => equalLists as bs
  | string a, string b => a == b
  | _, _ => false

/-- The kind of a value that may be missing. -/
def kindOf (v : Option Value) : Kind := v.elim .none kind

/-- The text of a value that may be missing. -/
def textOf (v : Option Value) : String := v.elim "nothing" text

end Value

end Handheld
