import Handheld.Calculator
import Handheld.Config.Node
import Handheld.FileTree

/-!
# Configurations

The settings of a calculator and how a document changes the defaults. A key that has no meaning, a
key that is given twice and a value of the wrong kind are refused.
-/

namespace Handheld

/-- The settings of a calculator. -/
structure Configuration where
  /-- The absolute path of the file it comes from, empty if there is none. -/
  path : String
  /-- What the console shows before a line is entered. -/
  prompt : String
  /-- Where the console keeps the lines that were entered. -/
  historyFile : String
  /-- The console uses colours. -/
  colour : Bool
  /-- The level of the log, as it is written. -/
  level : String
  /-- The log is written in its machine-readable form. -/
  json : Bool
  /-- What the calculator records. -/
  debug : Debug
  /-- The files of the programs that are loaded at the start, by name. -/
  programs : Std.TreeMap String String

/-- Why there is no configuration. -/
inductive ConfigFault
  /-- No file was named. -/
  | emptyPath
  /-- The file cannot be opened. -/
  | file (f : FileFault)
  /-- The file is no document of settings. -/
  | document (path : String)
  /-- The level of the log is none. -/
  | level (text : String) (f : LevelFault)
  /-- A program cannot have its name. -/
  | name (f : ProgramNameFault)
  /-- A program has no file. -/
  | noSource (program : String)
deriving DecidableEq, Repr

namespace ConfigFault

/-- The fault as the user sees it. -/
def toFault : ConfigFault → Fault
  | emptyPath => .external "config: empty path"
  | file f => .external f.message
  | document path => .external s!"config: parse {path}: not a configuration"
  | level text f => .during s!"config: log level {Text.quoted text}: " (.external f.message)
  | name f => .during "config: " (.programName f)
  | noSource program => .external s!"config: program {program} has no source file"

end ConfigFault

namespace Configuration

open Config

/-- The settings if there is no file. -/
def default : Configuration := ⟨"", "> ", "", true, "info", false, .off, ∅⟩

/-- A text setting; nothing given leaves it alone. -/
def text? (old : String) : Node → Option String
  | .scalar s => some (if s.isNull then old else s.text)
  | _ => none

/-- A setting that is on or off; nothing given leaves it alone. -/
def flag? (old : Bool) : Node → Option Bool
  | .scalar s => if s.isNull then some old else s.bool?
  | _ => none

/-- Applies a setting of the console. -/
def setInteractive (c : Configuration) (key : String) (n : Node) : Option Configuration :=
  match key with
  | "prompt" => (text? c.prompt n).map fun s => { c with prompt := s }
  | "history_file" => (text? c.historyFile n).map fun s => { c with historyFile := s }
  | "color" => (flag? c.colour n).map fun b => { c with colour := b }
  | _ => none

/-- Applies a setting of the log. -/
def setLog (c : Configuration) (key : String) (n : Node) : Option Configuration :=
  match key with
  | "level" => (text? c.level n).map fun s => { c with level := s }
  | "json" => (flag? c.json n).map fun b => { c with json := b }
  | _ => none

/-- Applies a setting of what is recorded. -/
def setDebug (c : Configuration) (key : String) (n : Node) : Option Configuration :=
  match key with
  | "lex" => (flag? c.debug.lex n).map fun b => { c with debug.lex := b }
  | "preprocess" => (flag? c.debug.normalize n).map fun b => { c with debug.normalize := b }
  | "parse" => (flag? c.debug.parse n).map fun b => { c with debug.parse := b }
  | "dump" => (flag? c.debug.dump n).map fun b => { c with debug.dump := b }
  | _ => none

/-- Adds a program. -/
def setProgram (c : Configuration) (key : String) (n : Node) : Option Configuration :=
  (text? "" n).map fun s => { c with programs := c.programs.insert key s }

/-- The key that would take entries from elsewhere, which is refused. -/
def mergeKey : Scalar := ⟨"<<", false⟩

/-- A key must be a scalar. -/
def key? : Node → Option Scalar
  | .scalar s => if s = mergeKey then none else some s
  | _ => none

/-- Some text stands twice. -/
def repeats : List String → Bool
  | [] => false
  | s :: more => more.contains s || repeats more

/-- Applies the entries of a mapping one after another; a key that says nothing is passed over. -/
def setAll (set : Configuration → String → Node → Option Configuration) (c : Configuration)
    (entries : List (Node × Node)) : Option Configuration := do
  let keys ← entries.mapM fun (k, _) => key? k
  if repeats (keys.map (·.text)) then none
  else
    (keys.zip entries).foldlM (fun c (k, _, n) => if k.isNull then some c else set c k.text n) c

/-- Applies a mapping; nothing given changes nothing. -/
def setMapping (set : Configuration → String → Node → Option Configuration) (c : Configuration) :
    Node → Option Configuration
  | .scalar s => if s.isNull then some c else none
  | .list _ => none
  | .mapping entries => setAll set c entries

/-- Applies a section. -/
def setSection (c : Configuration) (key : String) (n : Node) : Option Configuration :=
  match key with
  | "interactive" => setMapping setInteractive c n
  | "log" => setMapping setLog c n
  | "debug" => setMapping setDebug c n
  | "programs" => setMapping setProgram c n
  | _ => none

/-- The defaults changed by the settings of a file. -/
def ofText? (text : String) : Option Configuration := do
  match ← Node.ofText? text with
  | none => some default
  | some n => setMapping setSection default n

/-- The first program with a bad name or without a file, in the order of their names. -/
def programFault? (c : Configuration) : Option ConfigFault :=
  c.programs.toList.findSome? fun (name, source) =>
    match Name.checkProgram name with
    | .error f => some (.name f)
    | .ok () => if (Text.trim source.toList).isEmpty then some (.noSource name) else none

/-- Checks the level of the log and the programs. -/
def validate (c : Configuration) : Except ConfigFault Unit :=
  match Level.ofText c.level with
  | .error f => .error (.level c.level f)
  | .ok _ =>
    match c.programFault? with
    | some f => .error f
    | none => .ok ()

end Configuration

end Handheld
