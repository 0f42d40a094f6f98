/-!
# Command line options

Options start with one or two dashes. An option that is on or off may have a value after `=`; an
option with a text has it after `=` or as the next word. Options end at the first word that is none,
or after `--`.
-/

namespace Handheld.CommandLine

/-- What the command line asks for. -/
structure Options where
  /-- The configuration file, if not empty. -/
  config : String
  /-- The line to run, if not empty. -/
  eval : String
  /-- Everything is recorded. -/
  verbose : Bool
  /-- Normalized programs are recorded. -/
  debugNormalize : Bool
  /-- Statements are recorded. -/
  debugParse : Bool
  /-- The memory is recorded after each run. -/
  dump : Bool
  /-- Only the version is wanted. -/
  version : Bool
  /-- Only the help text is wanted. -/
  help : Bool
  /-- A session is wanted. -/
  interactive : Bool
  /-- Only the names of the commands are wanted. -/
  commands : Bool
  /-- The words after the options. -/
  files : List String
deriving DecidableEq, Repr

/-- How a list of words ends without options. -/
inductive Refusal
  /-- The help text was asked for by an option that does not exist. -/
  | help
  /-- The words are no options. -/
  | misuse
deriving DecidableEq, Repr

/-- A word as part of a command line. -/
inductive Word
  /-- Not an option. -/
  | operand
  /-- The end of the options. -/
  | terminator
  /-- An option with its value, if that is in the same word. -/
  | option (name : String) (value : Option String)
  /-- Dashes without the name of an option. -/
  | malformed
deriving DecidableEq, Repr

namespace Word

/-- The option that stands after the dashes. -/
def ofName : List Char → Word
  | [] => malformed
  | c :: cs =>
    if c == '-' || c == '=' then malformed
    else
      let name := String.ofList (c :: cs.takeWhile (· != '='))
      match cs.dropWhile (· != '=') with
      | [] => option name none
      | _ :: value => option name (some (String.ofList value))

/-- What a word is. -/
def ofText (s : String) : Word :=
  match s.toList with
  | ['-', '-'] => terminator
  | '-' :: '-' :: cs => ofName cs
  | '-' :: c :: cs => ofName (c :: cs)
  | _ => operand

end Word

namespace Options

/-- No option is given. -/
def none : Options :=
  ⟨"", "", false, false, false, false, false, false, false, false, []⟩

/-- How an option with a text is set. -/
def setText? : String → Option (Options → String → Options)
  | "config" => some fun o s => { o with config := s }
  | "eval" => some fun o s => { o with eval := s }
  | _ => .none

/-- How an option that is on or off is set. -/
def setFlag? : String → Option (Options → Bool → Options)
  | "verbose" => some fun o b => { o with verbose := b }
  | "debug-preprocess" => some fun o b => { o with debugNormalize := b }
  | "debug-parse" => some fun o b => { o with debugParse := b }
  | "dump" => some fun o b => { o with dump := b }
  | "version" => some fun o b => { o with version := b }
  | "help" => some fun o b => { o with help := b }
  | "interactive" => some fun o b => { o with interactive := b }
  | "commands" => some fun o b => { o with commands := b }
  | _ => .none

/-- The truth value that a text writes. -/
def bool? (s : String) : Option Bool :=
  if ["1", "t", "T", "TRUE", "true", "True"].contains s then some true
  else if ["0", "f", "F", "FALSE", "false", "False"].contains s then some false
  else .none

/-- Sets an option that is complete in its word. -/
def set (o : Options) (name : String) (value : Option String) : Except Refusal Options :=
  match setText? name, setFlag? name with
  | some f, _ => value.elim (.error .misuse) fun s => .ok (f o s)
  | .none, some f => (bool? (value.getD "true")).elim (.error .misuse) fun b => .ok (f o b)
  | .none, .none => .error (if name == "h" then .help else .misuse)

/-- The option takes the next word as its value. -/
def takesNext (name : String) (value : Option String) : Bool :=
  value.isNone && (setText? name).isSome

/-- Reads the words of a command line into options that were given so far. -/
def read (o : Options) : List String → Except Refusal Options
  | [] => .ok { o with files := [] }
  | w :: ws =>
    match Word.ofText w with
    | .operand => .ok { o with files := w :: ws }
    | .terminator => .ok { o with files := ws }
    | .malformed => .error .misuse
    | .option name value =>
      if takesNext name value then
        match ws with
        | [] => .error .misuse
        | v :: ws => do
          let o ← o.set name (some v)
          o.read ws
      else do
        let o ← o.set name value
        o.read ws

end Options

end Handheld.CommandLine
