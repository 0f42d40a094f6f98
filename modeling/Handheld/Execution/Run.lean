import Handheld.Execution.Step

/-!
# Running programs

A program runs statement by statement until it ends or fails. It can call other programs, up to a
fixed depth. A run may go on for ever, so it is given a number of statements after which it is given
up; being given up is neither an end nor a fault, and more statements never change a run that ended.
-/

namespace Handheld

/-- Programs by name. -/
abbrev Programs := Std.TreeMap String Program

/-- What a running program can call. -/
structure Context where
  /-- The commands. -/
  commands : Registry
  /-- The other programs. -/
  programs : Programs

/-- How a run came out: a result or a fault, with the world after it. -/
abbrev Outcome (α : Type) := EStateM.Result Fault World α

/-- The greatest number of programs that can be running at once. -/
def maxCallDepth : Nat := 255

/-- Starts a program while `depth` programs are running. -/
def startProgram (depth : Nat) (p : Program) : Action Unit :=
  if maxCallDepth ≤ depth then throw (.callDepth maxCallDepth)
  else Action.record (.executing p.name (depth + 1))

/-- Ends a program that ran off its last statement. -/
def endProgram (p : Program) (frames : List Frame) : Action Signal := do
  if !frames.isEmpty then Action.record (.openBlocks p.name frames.length)
  return .none

/-- Runs a program from the statement with the index `i`, as the `depth`-th running program, and gives
up after `fuel` statements. -/
def runFrom (c : Context) : Nat → Nat → Program → Nat → List Frame → World → Option (Outcome Signal)
  | 0, _, _, _, _, _ => none
  | fuel + 1, depth, p, i, frames, w =>
    match p.statements[i]? with
    | none => some (endProgram p frames w)
    | some s =>
      let w := w.record (.statement p.name i frames.length s)
      match s.instruction with
      | .call name =>
        match c.programs[name]? with
        | none => some (.error (.undefinedProgram name (some s.position)) w)
        | some callee =>
          match startProgram depth callee w with
          | .error f w => some (.error f w)
          | .ok () w =>
            match runFrom c fuel (depth + 1) callee 0 [] w with
            | none => none
            | some (.error f w) => some (.error f w)
            | some (.ok .stop w) => some (.ok .stop w)
            | some (.ok _ w) => runFrom c fuel depth p (i + 1) frames w
      | _ =>
        match Place.step ⟨p.statements, i, frames⟩ c.commands p.name s w with
        | .error f w => some (.error f w)
        | .ok (.done signal) w => some (.ok signal w)
        | .ok (.next i frames) w => runFrom c fuel depth p i frames w

/-- Runs a program while `depth` programs are running. -/
def execute (c : Context) (fuel depth : Nat) (p : Program) (w : World) : Option (Outcome Signal) :=
  match startProgram depth p w with
  | .error f w => some (.error f w)
  | .ok () w => runFrom c fuel (depth + 1) p 0 [] w

end Handheld
