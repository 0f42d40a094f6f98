import Handheld.Statement.Parser
import Handheld.Token.Lexer
import Handheld.Token.Normal
import Handheld.Value.Basic

/-!
# Faults

Everything that can go wrong while a line or a program is read and run. A fault is a cause; its
reason is the class that a caller acts on, and its message is the text that a user sees.
-/

namespace Handheld

/-- The class of a fault. -/
inductive Reason
  /-- Not a fault of the language. -/
  | unknown
  /-- The text is no program. -/
  | syntaxError
  /-- The text cannot be normalized. -/
  | normalization
  /-- A command was given the wrong arguments. -/
  | argument
  /-- A value has the wrong kind. -/
  | kind
  /-- A function is undefined at its arguments. -/
  | domain
  /-- A block word stands where it cannot. -/
  | controlFlow
  /-- No command has this name. -/
  | commandNotFound
  /-- A command is registered twice. -/
  | duplicateCommand
  /-- A variable or program does not exist. -/
  | undefined
  /-- A resource failed or ran out. -/
  | system
  /-- An invariant does not hold. -/
  | assertion
deriving DecidableEq, Repr

namespace Reason

/-- The number of a reason, which is also the exit status of a failed command line. -/
def code : Reason → Nat
  | unknown => 0
  | syntaxError => 1
  | normalization => 2
  | argument => 3
  | kind => 4
  | domain => 5
  | controlFlow => 6
  | commandNotFound => 7
  | duplicateCommand => 8
  | undefined => 9
  | system => 40
  | assertion => 100

/-- The words for the reason with a given number. -/
def describeCode (code : Int) : String :=
  if code = 1 then "syntax error"
  else if code = 2 then "preprocessing error"
  else if code = 3 then "argument error"
  else if code = 4 then "type error"
  else if code = 5 then "domain error"
  else if code = 6 then "illegal control flow"
  else if code = 7 then "command not found"
  else if code = 8 then "duplicate command"
  else if code = 9 then "undefined"
  else if code = 40 then "system error"
  else if code = 100 then "invariant violation"
  else "error"

/-- The words for a reason. -/
def describe (r : Reason) : String := describeCode r.code

end Reason

/-- The operand that is at fault. -/
inductive Side
  | none | left | right
deriving DecidableEq, Repr

namespace Side

/-- The words that name the operand. -/
def words : Side → String
  | none => "Argument"
  | left => "Left hand side of expression"
  | right => "Right hand side of expression"

end Side

/-- Where a function is undefined. -/
inductive DomainFault
  /-- The divisor is zero. -/
  | divisionByZero
  /-- Zero to a power that is not positive. -/
  | zeroPower
  /-- Numbers that are not real cannot be ordered. -/
  | unordered
  /-- The argument of a factorial is no integer in its range. -/
  | factorial (z : Number)
  /-- The tangent has a pole. -/
  | tangent (z : Number)
  /-- The logarithm of zero. -/
  | logarithm
  /-- The named function takes real numbers only. -/
  | notReal (command : String)
  /-- The number of places to round to is not in its range. -/
  | places (z : Number)
deriving DecidableEq, Repr

namespace DomainFault

/-- The largest argument of a factorial. -/
def maxFactorial : Nat := 69

/-- The wording of the fault. -/
def message : DomainFault → String
  | divisionByZero => "division by zero"
  | zeroPower => "zero raised to a non-positive power"
  | unordered => "cannot order non-real numbers"
  | factorial z => s!"factorial is defined for integers 0 to {maxFactorial}, got {z.text}"
  | tangent z => s!"tan is undefined at {z.text}"
  | logarithm => "logarithm of zero"
  | notReal command => s!"{command} needs real numbers"
  | places z => s!"round needs 0 to 9 decimal places, got {z.text}"

end DomainFault

/-- A block word that stands where it cannot. -/
inductive ControlFault
  | thenWithoutIf | elseWithoutIf | whileThen | repeatThen | endWithoutBlock
deriving DecidableEq, Repr

namespace ControlFault

/-- The wording of the fault. -/
def message : ControlFault → String
  | thenWithoutIf => "Then without If"
  | elseWithoutIf => "Else without matching If-Then"
  | whileThen => "While cannot be followed by Then"
  | repeatThen => "Repeat cannot be followed by Then"
  | endWithoutBlock => "End without open block"

end ControlFault

/-- A cause of failure. -/
inductive Fault
  /-- The text has no tokens. -/
  | lex (f : LexFault)
  /-- The tokens have no normal form. -/
  | normal (f : NormalFault)
  /-- The tokens form no program. -/
  | parse (f : ParseFault)
  /-- A command cannot take this number of arguments. -/
  | arity (command : String) (arguments : List (Option Value))
  /-- A command cannot take an argument of this kind. -/
  | mismatch (side : Side) (expected : Kind) (actual : Option Value)
  /-- Two lists that are combined have different lengths. -/
  | dimensions (left right : List Number)
  /-- A list would have too many elements. -/
  | listTooLong (length : Nat)
  /-- The named function needs an element. -/
  | emptyList (command : String)
  /-- A text is no list name. -/
  | listName (f : ListNameFault)
  /-- A text is no program name. -/
  | programName (f : ProgramNameFault)
  /-- An element of a list is no number. -/
  | element (actual : Option Value) (pos : Position)
  /-- A numeric variable holds numbers only. -/
  | storeNumber (actual : Option Value) (name : Char)
  /-- A list variable holds lists only. -/
  | storeList (actual : Option Value) (name : String)
  /-- A condition is no number. -/
  | condition (actual : Option Value)
  /-- A command inside an expression produces nothing. -/
  | noValue (e : Expr)
  /-- A function is undefined at its arguments. -/
  | domain (f : DomainFault)
  /-- A block word stands where it cannot. -/
  | control (f : ControlFault) (pos : Position)
  /-- No command has this name. -/
  | commandNotFound (name : String)
  /-- The name of a command is taken. -/
  | nameTaken (name : String)
  /-- The command belongs to an environment already. -/
  | alreadyOwned (name owner : String)
  /-- The character names no numeric variable. -/
  | notVariable (name : Char)
  /-- The list was never stored. -/
  | undefinedList (name : String)
  /-- The program was never loaded; a call knows its place. -/
  | undefinedProgram (name : String) (pos : Option Position)
  /-- Programs call each other too deeply. -/
  | callDepth (limit : Nat)
  /-- A prompt could not be printed. -/
  | promptFailed (cause : String)
  /-- There is no more input. -/
  | inputClosed
  /-- Input could not be read. -/
  | inputFailed (cause : String)
  /-- A value could not be printed. -/
  | displayFailed (shown cause : String)
  /-- A program was started outside of every environment. -/
  | unbound
  /-- `Disp` was executed outside of every environment. -/
  | displayOutside
  /-- A command was executed on arguments that its check refuses. -/
  | unchecked
  /-- A failure of something that is not part of the language. -/
  | external (text : String)
  /-- A fault with the circumstances in front of its message. -/
  | during (circumstances : String) (f : Fault)

namespace Fault

/-- The class of a fault; circumstances do not change it. -/
def reason : Fault → Reason
  | lex _ | parse _ => .syntaxError
  | normal _ => .normalization
  | arity _ _ | mismatch _ _ _ | dimensions _ _ | listTooLong _ | emptyList _ | listName _
  | programName _ => .argument
  | element _ _ | storeNumber _ _ | storeList _ _ | condition _ | noValue _ => .kind
  | domain _ => .domain
  | control _ _ => .controlFlow
  | commandNotFound _ => .commandNotFound
  | nameTaken _ | alreadyOwned _ _ => .duplicateCommand
  | notVariable _ | undefinedList _ | undefinedProgram _ _ => .undefined
  | callDepth _ | promptFailed _ | inputClosed | inputFailed _ | displayFailed _ _ => .system
  | unbound | displayOutside | unchecked => .assertion
  | external _ => .unknown
  | during _ f => f.reason

/-- A value with its kind, as messages show it. -/
def shown (v : Option Value) : String := (Value.kindOf v).text ++ " " ++ Value.textOf v

/-- The text that a user sees. -/
def message : Fault → String
  | lex f => f.message
  | normal f => f.message
  | parse f => f.message
  | arity command args => s!"invalid number of arguments for {command}: {args.length}"
  | mismatch side expected actual =>
    s!"{side.words} is not a {expected.text}: {Value.textOf actual}"
  | dimensions l r => s!"dimension mismatch: {l.length} and {r.length} elements"
  | listTooLong n =>
    s!"invalid dimension: lists hold at most {Value.maxListLength} elements, got {n}"
  | emptyList command => s!"invalid dimension: {command} of an empty list"
  | listName f => f.message
  | programName f => f.message
  | element v p => s!"list elements must be numbers, got {shown v}{p.mark}"
  | storeNumber v name => s!"cannot store {shown v} in numeric variable {name}"
  | storeList v name => s!"cannot store {shown v} in list {Name.listMarker}{name}"
  | condition v => s!"{shown v} is not a valid condition"
  | noValue e => s!"{e.describe} does not produce a value{e.position.mark}"
  | domain f => f.message
  | control f p => f.message ++ p.mark
  | commandNotFound name => s!"command not found: {name}"
  | nameTaken name => s!"command already exists: {name}"
  | alreadyOwned name owner =>
    s!"command instance for {name} is already registered in environment {owner}"
  | notVariable c => s!"{Text.quotedChar c} is not a numeric variable"
  | undefinedList name => s!"list {Name.listMarker}{name} is not defined"
  | undefinedProgram name none => s!"program {name} is not defined"
  | undefinedProgram name (some p) => s!"program {name} is not defined{p.mark}"
  | callDepth limit => s!"memory: program calls nested deeper than {limit}"
  | promptFailed cause => s!"could not print prompt: {cause}"
  | inputClosed => "input closed while waiting for a value"
  | inputFailed cause => s!"could not read input: {cause}"
  | displayFailed v cause => s!"could not display {v}: {cause}"
  | unbound => "interpreter is not bound to an environment"
  | displayOutside => "Disp executed outside of an environment"
  | unchecked => "command executed on unchecked arguments"
  | external text => text
  | during circumstances f => circumstances ++ f.message

/-- What an argument fault says about the arguments. -/
structure Arguments where
  /-- The operand at fault. -/
  side : Side
  /-- The kind that was expected. -/
  expected : Kind
  /-- The kind that was found. -/
  actual : Kind
  /-- The texts of the arguments at fault; a missing one has none. -/
  shown : List (Option String)
deriving DecidableEq, Repr

/-- The arguments at fault, for the faults that a command's check reports. -/
def arguments? : Fault → Option Arguments
  | arity _ args => some ⟨.none, .none, .none, args.map (·.map Value.text)⟩
  | mismatch side expected v => some ⟨side, expected, Value.kindOf v, [some (Value.textOf v)]⟩
  | dimensions l r =>
    some ⟨.none, .list, .list, [some (Value.list l).text, some (Value.list r).text]⟩
  | during _ f => f.arguments?
  | _ => none

end Fault

end Handheld
