import Handheld.Fault
import Std.Data.TreeMap

/-!
# Memory

The variables of a calculator: 27 numbers, any number of lists, and the last result. A number starts
as zero, a list starts undefined, and the last result starts as zero.
-/

namespace Handheld

/-- The variables of a calculator. -/
structure Memory where
  /-- The numeric variables that were stored. -/
  numbers : Std.TreeMap Char Number
  /-- The lists that were stored. -/
  lists : Std.TreeMap String (List Number)
  /-- The last result. -/
  ans : Option Value
  /-- How many results there were. -/
  results : Nat
  /-- Why numbers cannot be stored, if they cannot. -/
  locked : Option String

namespace Memory

/-- The memory of a new calculator. -/
def fresh : Memory := ⟨∅, ∅, some (.number .zero), 0, none⟩

/-- The value of a numeric variable. -/
def number (m : Memory) (name : Char) : Number := (m.numbers[name]?).getD .zero

/-- The value of a list. -/
def list (m : Memory) (name : String) : Except Fault (List Number) :=
  match m.lists[name]? with
  | some zs => .ok zs
  | none => .error (.undefinedList name)

/-- The names of the stored lists, in increasing order. -/
def listNames (m : Memory) : List String := m.lists.keys

/-- Stores a number. -/
def setNumber (m : Memory) (name : Char) (v : Option Value) : Except Fault Memory :=
  match m.locked with
  | some cause => .error (.external cause)
  | none =>
    if Name.isLetter name then
      match v with
      | some (.number z) => .ok { m with numbers := m.numbers.insert name z }
      | _ => .error (.storeNumber v name)
    else .error (.notVariable name)

/-- Stores a list. -/
def setList (m : Memory) (name : String) (v : Option Value) : Except Fault Memory :=
  match Name.checkList name with
  | .error f => .error (.listName f)
  | .ok () =>
    match v with
    | some (.list zs) =>
      if Value.maxListLength < zs.length then .error (.listTooLong zs.length)
      else .ok { m with lists := m.lists.insert name zs }
    | _ => .error (.storeList v name)

/-- Sets the last result. -/
def setAns (m : Memory) (v : Option Value) : Memory :=
  { m with ans := v, results := m.results + 1 }

/-- Stores a value in a variable. -/
def store (m : Memory) (v : Option Value) : Target → Except Fault Memory
  | .var name => m.setNumber name v
  | .list name => m.setList name v

/-- The variables that are not at their start, each with its value, and the last result. -/
def summary (m : Memory) : String :=
  let numbers := Name.numericVariables.filterMap fun c =>
    if (m.number c).isZero then none else some s!"{c}={(m.number c).text}"
  let lists := m.lists.toList.map fun (name, zs) =>
    s!"{Name.listMarker}{name}={(Value.list zs).text}"
  " ".intercalate (numbers ++ lists ++ [s!"Ans={Value.textOf m.ans}"])

end Memory

end Handheld
