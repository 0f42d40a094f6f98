import Handheld.Value.Arithmetic
import Handheld.World

/-!
# Commands

Operators and functions are commands that are called by name. A command first checks the number and
the kinds of its arguments and only then runs. A missing argument has a kind of its own, so a check
can refuse it.
-/

namespace Handheld

/-- A unit of work that is called by name. -/
inductive Command
  /-- An operator on two numeric values. -/
  | binary (symbol : String) (fn : Value → Value → Except Fault Value)
  /-- A function of a number, applied to each element of a list. -/
  | unary (symbol : String) (fn : Number → Except Fault Number)
  /-- A function with the least and greatest number of its arguments and, for each argument, the kinds
  it may have; the last entry holds for all further arguments. -/
  | function (least most : Int) (accepts : List (List Kind))
      (fn : List (Option Value) → Except Fault (Option Value))
  /-- Prints each argument on a line of its own. -/
  | display

namespace Command

/-- The command can take this number of arguments. -/
def takes (n : Nat) : Command → Bool
  | binary _ _ => n == 2
  | unary _ _ => n == 1
  | function least most _ _ => least ≤ n && n ≤ most
  | display => true

/-- Checks each argument against its kinds; the last entry repeats, and no entry accepts all. -/
def checkKinds : List (List Kind) → List (Option Value) → Except Fault Unit
  | _, [] | [], _ => .ok ()
  | kinds :: more, v :: vs =>
    if kinds.contains (Value.kindOf v) then
      checkKinds (if more.isEmpty then [kinds] else more) vs
    else .error (.mismatch .none (kinds.headD .none) v)

/-- A numeric value, or the fault of an argument that is none. -/
def checkNumeric (side : Side) (v : Option Value) : Except Fault Unit :=
  if v.any Value.isNumeric then .ok () else .error (.mismatch side .number v)

/-- Checks the kinds of the arguments. -/
def checkValues : Command → List (Option Value) → Except Fault Unit
  | binary _ _, l :: r :: _ => do
    checkNumeric .left l
    checkNumeric .right r
    match l, r with
    | some (.list as), some (.list bs) =>
      if as.length = bs.length then .ok () else .error (.dimensions as bs)
    | _, _ => .ok ()
  | unary _ _, v :: _ => checkNumeric .none v
  | function _ _ accepts _, vs => checkKinds accepts vs
  | display, vs =>
    if vs.contains none then .error (.mismatch .none .number none) else .ok ()
  | _, _ => .ok ()

/-- Both operands, or the fault of the first one that is not numeric. -/
def operands : Option Value → Option Value → Except Fault (Value × Value)
  | some l, some r => .ok (l, r)
  | l, r => do
    checkNumeric .left l
    checkNumeric .right r
    .error .unchecked

/-- Checks the number of the arguments, then their kinds. -/
def check (c : Command) (name : String) (vs : List (Option Value)) : Except Fault Unit :=
  if c.takes vs.length then c.checkValues vs else .error (.arity name vs)

/-- Prints some values, each on a line of its own. -/
def displayAll : List (Option Value) → Action Unit
  | [] => pure ()
  | none :: _ => throw .unchecked
  | some v :: vs => do
    Action.print v.text (.displayFailed v.text)
    displayAll vs

/-- Runs the command on arguments that were checked. -/
def execute : Command → List (Option Value) → Action (Option Value)
  | binary symbol fn, l :: r :: _ => do
    let (l, r) ← Action.ofExcept (operands l r)
    let v ← Action.ofExcept (fn l r)
    Action.record (.appliedBinary symbol l r v)
    return some v
  | unary symbol fn, some a :: _ => do
    let v ← Action.ofExcept (Value.mapNumbers fn a)
    Action.record (.appliedUnary symbol a v)
    return some v
  | function _ _ _ fn, vs => Action.ofExcept (fn vs)
  | display, vs => do
    displayAll vs
    return none
  | _, _ => throw .unchecked

/-- Checks the arguments and runs the command. -/
def run (c : Command) (name : String) (vs : List (Option Value)) : Action (Option Value) :=
  match c.check name vs with
  | .error f => do
    Action.record (.rejected name vs f)
    throw f
  | .ok () => c.execute vs

end Command

/-- Commands by name. -/
abbrev Registry := Std.TreeMap String Command

namespace Registry

/-- Runs the command with the given name. -/
def run (r : Registry) (name : String) (vs : List (Option Value)) : Action (Option Value) :=
  match r[name]? with
  | none => throw (.commandNotFound name)
  | some c => c.run name vs

end Registry

end Handheld
