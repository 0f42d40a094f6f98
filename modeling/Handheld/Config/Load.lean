import Handheld.Config.Basic

/-!
# Loading a configuration and its programs

A configuration is read from a file, and the files of its programs are found from the folder of that
file.
-/

namespace Handheld.Configuration

variable {m : Type → Type} [Monad m]

/-- The configuration in a file that was read. -/
def ofFile (path : String) : Except FileFault String → Except ConfigFault Configuration
  | .error (.folder _) => .error (.document path)
  | .error f => .error (.file f)
  | .ok text =>
    match ofText? text with
    | none => .error (.document path)
    | some c => do
      let c := { c with path }
      c.validate
      return c

/-- Reads a configuration. -/
def load (files : Files m) (path : String) : m (Except ConfigFault Configuration) := do
  if path.isEmpty then return .error .emptyPath
  let path := Path.absolute files.current path
  return ofFile path (← files.read path)

/-- Where the file of a program is. -/
def sourcePath (c : Configuration) (source : String) : String :=
  if Path.isAbsolute source || c.path.isEmpty then source
  else Path.join (Path.folder c.path) source

/-- Loads programs one after another up to the first that fails, and says why it does. -/
def loadAll (c : Configuration) (files : Files m) :
    List (String × String) → Calculator → m (Option Fault × Calculator)
  | [], k => return (none, k)
  | (name, source) :: more, k => do
    let fail (f : Fault) : Fault := .during s!"config: program {name}: " f
    match ← files.read (c.sourcePath source) with
    | .error f => return (some (fail (.external f.message)), k)
    | .ok text =>
      match k.load name text with
      | (.error f, k) => return (some (fail f), k)
      | (.ok (), k) => loadAll c files more k

/-- Loads the programs of a configuration in the order of their names. -/
def loadPrograms (c : Configuration) (files : Files m) (k : Calculator) :
    m (Option Fault × Calculator) :=
  c.loadAll files c.programs.toList k

end Handheld.Configuration
