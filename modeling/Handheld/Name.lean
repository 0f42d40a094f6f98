import Handheld.Text.Quoted

/-!
# Names of variables, lists and programs

The 27 numeric variables are the capital letters and `θ`. Six lists have a subscript digit as their
name; other lists, and programs, have short names of capital letters, `θ` and digits that do not
start with a digit.
-/

namespace Handheld

namespace Name

/-- The letter after `Z`. -/
def theta : Char := 'θ'

/-- A capital letter or `θ`: the names of the numeric variables, and the first characters of list and
program names. -/
def isLetter (c : Char) : Bool :=
  ('A' ≤ c && c ≤ 'Z') || c == theta

/-- A decimal digit. -/
def isDigit (c : Char) : Bool := '0' ≤ c && c ≤ '9'

/-- The characters of list and program names. -/
def isNameChar (c : Char) : Bool := isLetter c || isDigit c

/-- The subscript digits that name the six built-in lists. -/
def isSubscript (c : Char) : Bool := '₁' ≤ c && c ≤ '₆'

/-- The numeric variables in the order they are shown. -/
def numericVariables : List Char :=
  "ABCDEFGHIJKLMNOPQRSTUVWXYZ".toList ++ [theta]

/-- The mark in front of a list's name. -/
def listMarker : Char := '∟'

/-- The length of the longest list name. -/
def maxListName : Nat := 5

/-- The length of the longest program name. -/
def maxProgramName : Nat := 8

end Name

/-- Why a text is not the name of a list. -/
inductive ListNameFault
  /-- There is no character. -/
  | empty
  /-- Something follows a subscript digit. -/
  | builtin (name : String)
  /-- There are too many characters. -/
  | tooLong (name : String)
  /-- The first character is no letter. -/
  | badStart (name : String)
  /-- The character `c` cannot stand in a name. -/
  | illegal (name : String) (c : Char)
deriving DecidableEq, Repr

namespace ListNameFault

/-- The wording of the fault. -/
def message : ListNameFault → String
  | empty => "list name is empty"
  | builtin name => s!"invalid list name {name}: built-in list names are a single subscript digit"
  | tooLong name => s!"invalid list name {name}: at most {Name.maxListName} characters allowed"
  | badStart name => s!"invalid list name {name}: must start with a letter or θ"
  | illegal name c => s!"invalid list name {name}: illegal character {Text.quotedChar c}"

end ListNameFault

/-- Why a text is not the name of a program. -/
inductive ProgramNameFault
  /-- There is no character, or there are too many. -/
  | badLength (name : String)
  /-- The first character is no letter. -/
  | badStart (name : String)
  /-- The character `c` cannot stand in a name. -/
  | illegal (name : String) (c : Char)
deriving DecidableEq, Repr

namespace ProgramNameFault

/-- The wording of the fault. -/
def message : ProgramNameFault → String
  | badLength name =>
    s!"invalid program name {Text.quoted name}: must be 1 to {Name.maxProgramName} characters"
  | badStart name => s!"invalid program name {Text.quoted name}: must start with a letter or θ"
  | illegal name c =>
    s!"invalid program name {Text.quoted name}: illegal character {Text.quotedChar c}"

end ProgramNameFault

namespace Name

/-- Accepts the names of lists. -/
def checkList (name : String) : Except ListNameFault Unit :=
  match name.toList with
  | [] => .error .empty
  | c :: cs =>
    if isSubscript c then
      if cs.isEmpty then .ok () else .error (.builtin name)
    else if maxListName < cs.length + 1 then .error (.tooLong name)
    else if !isLetter c then .error (.badStart name)
    else
      match cs.find? (!isNameChar ·) with
      | some x => .error (.illegal name x)
      | none => .ok ()

/-- Accepts the names of programs. -/
def checkProgram (name : String) : Except ProgramNameFault Unit :=
  match name.toList with
  | [] => .error (.badLength name)
  | c :: cs =>
    if maxProgramName < cs.length + 1 then .error (.badLength name)
    else if !isLetter c then .error (.badStart name)
    else
      match cs.find? (!isNameChar ·) with
      | some x => .error (.illegal name x)
      | none => .ok ()

end Name

end Handheld
