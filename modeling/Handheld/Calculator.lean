import Handheld.Execution.Run

/-!
# The calculator

A calculator has the built-in commands, the programs that were loaded, and the world they run in. It
loads programs, runs them, and runs single lines like programs without a name. After a run its
answer is the last result.
-/

namespace Handheld

/-- What a calculator records besides its ordinary events. -/
structure Debug where
  /-- The tokens of every program it reads. -/
  lex : Bool
  /-- The normalized text of every program it reads. -/
  normalize : Bool
  /-- The statements of every program it reads. -/
  parse : Bool
  /-- The memory after every run. -/
  dump : Bool
deriving DecidableEq, Repr

namespace Debug

/-- Nothing extra is recorded. -/
def off : Debug := ⟨false, false, false, false⟩

/-- The events of reading a program. -/
def reading (d : Debug) (name source : String) : List Event :=
  match Program.normalizedText source with
  | .error _ => []
  | .ok text =>
    let ts := (Token.scan text).toOption.getD []
    (if d.normalize then [.normalized name text] else []) ++
      (if d.lex then ts.map .lexed else []) ++
      (if d.parse then (Statement.readAll ts).1.map .parsed else [])

end Debug

/-- A calculator with its programs. -/
structure Calculator where
  /-- What it records. -/
  debug : Debug
  /-- The programs that were loaded. -/
  programs : Programs
  /-- What its programs change. -/
  world : World

namespace Calculator

/-- A calculator without programs. -/
def new (d : Device) (threshold : Level) : Calculator := ⟨.off, ∅, World.new d threshold⟩

/-- What the programs of the calculator can call. -/
def context (c : Calculator) : Context := ⟨Builtin.registry, c.programs⟩

/-- Records an event. -/
def record (c : Calculator) (e : Event) : Calculator := { c with world := c.world.record e }

/-- Records events in their order. -/
def recordAll (c : Calculator) (es : List Event) : Calculator := es.foldl record c

/-- Loads a program under a name; an earlier one of that name is replaced. -/
def load (c : Calculator) (name source : String) : Except Fault Unit × Calculator :=
  match Name.checkProgram name with
  | .error f => (.error (.programName f), c)
  | .ok () =>
    let c := c.recordAll (c.debug.reading name source)
    match Program.parse name source with
    | .error f => (.error f, c)
    | .ok p =>
      let c := { c with programs := c.programs.insert name p }
      (.ok (), c.record (.loaded name p.statements.length))

/-- The names of the loaded programs, in increasing order. -/
def programNames (c : Calculator) : List String := c.programs.keys

/-- Records the variables that are not at their start. -/
def dump (c : Calculator) : Calculator := c.record (.dumped c.world.memory.summary)

/-- The calculator after a run that left the given world. -/
def settle (c : Calculator) (w : World) : Calculator :=
  let c := { c with world := w }
  if c.debug.dump then c.dump else c

/-- Runs a program and answers with the last result; gives up after `fuel` statements. -/
def run (c : Calculator) (fuel : Nat) (p : Program) :
    Option (Except Fault (Option Value) × Calculator) :=
  match execute c.context fuel 0 p c.world with
  | none => none
  | some (.error f w) => some (.error f, c.settle w)
  | some (.ok signal w) => some (.ok w.memory.ans, (c.settle w).record (.finished p.name signal))

/-- Runs a loaded program. -/
def executeProgram (c : Calculator) (fuel : Nat) (name : String) :
    Option (Except Fault (Option Value) × Calculator) :=
  match c.programs[name]? with
  | none => some (.error (.undefinedProgram name none), c)
  | some p => c.run fuel p

/-- Runs a line. -/
def interpret (c : Calculator) (fuel : Nat) (line : String) :
    Option (Except Fault (Option Value) × Calculator) :=
  let c := c.recordAll (c.debug.reading "" line)
  match Program.parse "" line with
  | .error f => some (.error f, c)
  | .ok p => c.run fuel p

end Calculator

end Handheld
