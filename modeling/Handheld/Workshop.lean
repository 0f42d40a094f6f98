import Handheld.Execution.Run

/-!
# Environments and tools

A workshop holds environments and tools. A tool is a command that may be registered once, in one
environment and under one name; an environment has a memory of its own, and all share a console and a
log. Environments and tools are referred to by the numbers they were made with.
-/

namespace Handheld

/-- A command that one environment can own. -/
structure Tool where
  /-- What it does. -/
  command : Command
  /-- The environment in which it is registered. -/
  owner : Option Nat

/-- A memory with the tools that are callable there. -/
structure Environment where
  /-- How messages refer to the environment. -/
  label : String
  /-- The variables. -/
  memory : Memory
  /-- The registered tools by name. -/
  tools : Std.TreeMap String Nat

/-- Environments and tools that share a console and a log. -/
structure Workshop where
  /-- The environments. -/
  environments : Array Environment
  /-- The tools. -/
  tools : Array Tool
  /-- The conversation with the user. -/
  console : Console
  /-- The record of events. -/
  log : Log

namespace Workshop

/-- A workshop without environments and tools. -/
def new (d : Device) (threshold : Level) : Workshop :=
  ⟨#[], #[], Console.new d, Log.empty threshold⟩

/-- Makes an environment without commands. -/
def addEnvironment (s : Workshop) (label : String) (m : Memory) : Nat × Workshop :=
  (s.environments.size, { s with environments := s.environments.push ⟨label, m, ∅⟩ })

/-- Makes a tool that is not registered. -/
def addTool (s : Workshop) (c : Command) : Nat × Workshop :=
  (s.tools.size, { s with tools := s.tools.push ⟨c, none⟩ })

/-- The tool with the given name in an environment. -/
def find? (s : Workshop) (env : Nat) (name : String) : Option Nat :=
  (s.environments[env]?).bind (·.tools[name]?)

/-- The names that are registered in an environment, in increasing order. -/
def names (s : Workshop) (env : Nat) : List String :=
  (s.environments[env]?).elim [] (·.tools.keys)

/-- The environment that owns a tool. -/
def owner? (s : Workshop) (tool : Nat) : Option Nat := (s.tools[tool]?).bind (·.owner)

/-- The label of an environment. -/
def label (s : Workshop) (env : Nat) : String := (s.environments[env]?).elim "" (·.label)

/-- Registers a tool under a name. Both the name and the tool must be free. -/
def register (s : Workshop) (env : Nat) (name : String) (tool : Nat) :
    Except Fault Unit × Workshop :=
  match s.find? env name, s.owner? tool with
  | some _, _ => (.error (.nameTaken name), s)
  | none, some o => (.error (.alreadyOwned name (s.label o)), s)
  | none, none =>
    (.ok (),
      { s with
        environments :=
          s.environments.modify env fun e => { e with tools := e.tools.insert name tool }
        tools := s.tools.modify tool fun t => { t with owner := some env }
        log := s.log.record (.registered name) })

/-- Registers new tools for some commands, up to the first name that is taken. -/
def registerAll (env : Nat) : List (String × Command) → Workshop → Except Fault Unit × Workshop
  | [], s => (.ok (), s)
  | (name, c) :: more, s =>
    let (tool, s) := s.addTool c
    match s.register env name tool with
    | (.error f, s) => (.error (.during s!"loading builtin {name}: " f), s)
    | (.ok (), s) => registerAll env more s

/-- Registers the built-in commands. -/
def loadBuiltins (s : Workshop) (env : Nat) : Except Fault Unit × Workshop :=
  registerAll env Builtin.commands s

/-- The commands that are callable in an environment. -/
def registry (s : Workshop) (env : Nat) : Registry :=
  match s.environments[env]? with
  | none => ∅
  | some e => e.tools.filterMap fun _ tool => (s.tools[tool]?).map (·.command)

/-- The world of an environment. -/
def world? (s : Workshop) (env : Nat) : Option World :=
  (s.environments[env]?).map fun e => ⟨e.memory, s.console, s.log⟩

/-- The workshop after the world of an environment changed. -/
def setWorld (s : Workshop) (env : Nat) (w : World) : Workshop :=
  { s with
    environments := s.environments.modify env fun e => { e with memory := w.memory }
    console := w.console
    log := w.log }

/-- Performs an action in an environment. -/
def perform {α : Type} (s : Workshop) (env : Nat) (a : Action α) : Except Fault α × Workshop :=
  match s.world? env with
  | none => (.error .unbound, s)
  | some w =>
    match a w with
    | .ok x w => (.ok x, s.setWorld env w)
    | .error f w => (.error f, s.setWorld env w)

/-- Runs a command by name. -/
def runCommand (s : Workshop) (env : Nat) (name : String) (vs : List (Option Value)) :
    Except Fault (Option Value) × Workshop :=
  s.perform env ((s.registry env).run name vs)

/-- Evaluates a text. -/
def evalText (s : Workshop) (env : Nat) (text : String) : Except Fault (Option Value) × Workshop :=
  s.perform env (Expr.evalText (s.registry env) text)

/-- Executes a tool without checking its arguments. Printing needs an environment. -/
def executeTool (s : Workshop) (tool : Nat) (vs : List (Option Value)) :
    Except Fault (Option Value) × Workshop :=
  match s.tools[tool]? with
  | none => (.error .unchecked, s)
  | some ⟨.display, none⟩ => (.error .displayOutside, s)
  | some t =>
    match t.command.execute vs ⟨Memory.fresh, s.console, s.log⟩ with
    | .ok v w => (.ok v, { s with console := w.console, log := w.log })
    | .error f w => (.error f, { s with console := w.console, log := w.log })

/-- Runs a program in an environment; there are no other programs to call. Without an environment
nothing can run. -/
def runProgram (s : Workshop) (env : Option Nat) (fuel : Nat) (p : Program) :
    Option (Except Fault Signal × Workshop) :=
  match env.bind fun e => (s.world? e).map (e, ·) with
  | none => some (.error .unbound, s)
  | some (e, w) =>
    match execute ⟨s.registry e, ∅⟩ fuel 0 p w with
    | none => none
    | some (.ok signal w) => some (.ok signal, s.setWorld e w)
    | some (.error f w) => some (.error f, s.setWorld e w)

end Workshop

end Handheld
