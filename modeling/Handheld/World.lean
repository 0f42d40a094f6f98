import Handheld.Console
import Handheld.Log.Basic
import Handheld.Memory

/-!
# The world of a running program

A running program changes its memory, talks through its console and writes to the log. An action
does so and may fail; what it did before it failed stays done.
-/

namespace Handheld

/-- Everything that a running program can change. -/
structure World where
  /-- The variables. -/
  memory : Memory
  /-- The conversation with the user. -/
  console : Console
  /-- The record of events. -/
  log : Log

namespace World

/-- A world with a fresh memory, an unused device and an empty log. -/
def new (d : Device) (threshold : Level) : World :=
  ⟨Memory.fresh, Console.new d, Log.empty threshold⟩

/-- Records an event. -/
def record (w : World) (e : Event) : World := { w with log := w.log.record e }

end World

/-- Something that changes the world and gives a result or a fault. -/
abbrev Action := EStateM Fault World

namespace Action

/-- Fails or succeeds without changing the world. -/
def ofExcept {α : Type} : Except Fault α → Action α
  | .ok a => pure a
  | .error f => throw f

/-- Records an event. -/
def record (e : Event) : Action Unit := modify (·.record e)

/-- Prints a line; a failure is reported as the given fault. -/
def print (line : String) (fault : String → Fault) : Action Unit := fun w =>
  match w.console.print line with
  | (none, c) => .ok () { w with console := c }
  | (some cause, c) => .error (fault cause) { w with console := c }

/-- Asks for a line. -/
def read : Action String := fun w =>
  match w.console.read with
  | (.ok line, c) => .ok line { w with console := c }
  | (.error .closed, c) => .error .inputClosed { w with console := c }
  | (.error (.failed cause), c) => .error (.inputFailed cause) { w with console := c }

/-- Stores a value in a variable. -/
def store (v : Option Value) (t : Target) : Action Unit := fun w =>
  match w.memory.store v t with
  | .ok m => .ok () { w with memory := m }
  | .error f => .error f w

/-- Sets the last result. -/
def setAns (v : Option Value) : Action Unit :=
  modify fun w => { w with memory := w.memory.setAns v }

end Action

end Handheld
