import Handheld.CommandLine.Options
import Handheld.Config.Load
import Handheld.Session

/-!
# The command line

Runs a file, a line and a session, in this order, in one calculator. Each runs only if nothing
before it failed. The exit status is the number of the reason of the failure.
-/

namespace Handheld.CommandLine

/-- The version of the program. -/
def version : String := "tibasic v0.2.0"

/-- The help text. -/
def help : String :=
  "\n".intercalate
    ["", "tibasic interprets TI-Basic calculator programs.", "\t" ++ version, "",
      "Run a program from a source file; its name is the file name, upper-cased.",
      "\ttibasic prog.8xp.txt",
      "Start an interactive session with -interactive. Type exit to leave.",
      "\ttibasic -interactive", "\t> 2+3", "\t5",
      "Run a single line from the command line with -eval.",
      "\ttibasic -eval \"0→A:While A<5:A+1→A:End\"",
      "List the built-in commands and functions with -commands.", "\ttibasic -commands", "", ""]

/-- What a command line prints, and the status with which it exits. -/
structure Report where
  /-- The printed text. -/
  output : String
  /-- The exit status. -/
  status : Nat
  /-- How many lines of input were asked for. -/
  asked : Nat
deriving DecidableEq, Repr

/-- The status of a command line that does not say what to do. -/
def misuseStatus : Nat := 2

/-- The status of a failure; one that is not part of the language counts as a system failure. -/
def statusOf (r : Reason) : Nat := if r = .unknown then Reason.system.code else r.code

namespace Report

/-- A report without input. -/
def text (output : String) (status : Nat) : Report := ⟨output, status, 0⟩

/-- The failure of something around the calculator. -/
def failure : Report := text "" Reason.system.code

/-- The report of a calculator that was used. -/
def ofCalculator (k : Calculator) (status : Nat) : Report :=
  ⟨String.join (k.world.console.printed.toList.map (· ++ "\n")), status, k.world.console.asked⟩

end Report

/-- A calculator with the status of what it did last; none if that did not finish. -/
abbrev Stage := Option (Nat × Calculator)

/-- Prints a line, even if it cannot be printed. -/
def say (k : Calculator) (line : String) : Calculator :=
  { k with world.console := (k.world.console.print line).2 }

/-- Prints the result or the fault of a run. -/
def report (k : Calculator) : Except Fault (Option Value) → Nat × Calculator
  | .error f =>
    let k := k.record (.failed f.reason.code f.message)
    (statusOf f.reason, say k (Session.errorMark ++ f.message))
  | .ok none => (0, k)
  | .ok (some v) => (0, say k v.text)

/-- Loads a program and runs it. -/
def runSource (fuel : Nat) (name source : String) (k : Calculator) : Stage :=
  match k.load name source with
  | (.error f, k) => some (report k (.error f))
  | (.ok (), k) => (k.executeProgram fuel name).map fun (r, k) => report k r

/-- Runs a line. -/
def runLine (fuel : Nat) (line : String) (k : Calculator) : Stage :=
  (k.interpret fuel line).map fun (r, k) => report k r

/-- Runs a session. -/
def runSession (fuel : Nat) (k : Calculator) : Stage :=
  (Session.run fuel k).map fun (f, k) => (f.elim 0 (statusOf ·.reason), k)

/-- Goes on if it is wanted and nothing failed so far. -/
def Stage.andThen (s : Stage) (wanted : Bool) (next : Calculator → Stage) : Stage :=
  s.bind fun (status, k) => if status = 0 && wanted then next k else some (status, k)

/-- The calculator that the options and the configuration ask for. -/
def calculator (o : Options) (c : Configuration) (input : String) :
    Except LevelFault Calculator := do
  let threshold ← Level.threshold (if o.verbose then "debug" else c.level)
  let k := Calculator.new (Device.stream input) threshold
  return { k with
    debug :=
      { c.debug with
        normalize := c.debug.normalize || o.debugNormalize || o.verbose
        parse := c.debug.parse || o.debugParse || o.verbose
        dump := c.debug.dump || o.dump || o.verbose } }

variable {m : Type → Type} [Monad m]

/-- Runs the file that the options name, if they do. -/
def runFile (files : Files m) (fuel : Nat) (paths : List String) (k : Calculator) : m Stage := do
  match paths with
  | [] => return some (0, k)
  | path :: _ =>
    match ← files.read (Path.expandHome files.home path) with
    | .error f =>
      let message := s!"could not open {path} for execution:\n\t-> {f.message}"
      return some (Reason.system.code, k.record (.failed Reason.system.code message))
    | .ok source => return runSource fuel (Path.programName path) source k

/-- Does what the options ask for. -/
def perform (files : Files m) (input : String) (fuel : Nat) (o : Options) (c : Configuration) :
    m (Option Report) := do
  match calculator o c input with
  | .error _ => return some .failure
  | .ok k =>
    if o.commands then return some (.text ("\n".intercalate Builtin.registry.keys ++ "\n") 0)
    match ← c.loadPrograms files k with
    | (some _, _) => return some .failure
    | (none, k) =>
      let stage ← runFile files fuel o.files k
      let stage := stage.andThen (!o.eval.isEmpty) (runLine fuel o.eval)
      let stage := stage.andThen o.interactive (runSession fuel)
      return stage.map fun (status, k) => .ofCalculator k status

/-- There is something to do. -/
def Options.isUseful (o : Options) : Bool :=
  o.files.length ≤ 1 && (!o.files.isEmpty || !o.eval.isEmpty || o.interactive || o.commands)

/-- Runs a command line on some files and some input; gives up after `fuel` statements. -/
def run (files : Files m) (input : String) (fuel : Nat) (words : List String) :
    m (Option Report) := do
  match Options.none.read words with
  | .error .help => return some (.text help 0)
  | .error .misuse => return some (.text help misuseStatus)
  | .ok o =>
    if o.version then return some (.text (version ++ "\n") 0)
    if o.help then return some (.text help 0)
    if !o.isUseful then return some (.text help misuseStatus)
    if o.config.isEmpty then perform files input fuel o .default
    else
      match ← Configuration.load files o.config with
      | .error _ => return some .failure
      | .ok c => perform files input fuel o c

end Handheld.CommandLine
