import Handheld.Log.Level
import Handheld.Program

/-!
# The log

What happens inside the calculator is recorded as events. A log keeps the events whose level reaches
its threshold; an entry is the written form of an event. The log is only ever written, so nothing
depends on it.
-/

namespace Handheld

/-- How a program finished when it did not fail. -/
inductive Signal
  /-- It ran off its last statement. -/
  | none
  /-- `Stop`: every running program ends. -/
  | stop
  /-- `Return`: only the running program ends. -/
  | ret
deriving DecidableEq, Repr

namespace Signal

/-- The name of a signal. -/
def text : Signal → String
  | none => "none"
  | stop => "stop"
  | ret => "return"

end Signal

/-- Something worth recording. -/
inductive Event
  /-- A program was normalized. -/
  | normalized (program text : String)
  /-- A token was read. -/
  | lexed (t : Token)
  /-- A statement was parsed. -/
  | parsed (s : Statement)
  /-- A program was stored. -/
  | loaded (program : String) (statements : Nat)
  /-- A program starts, as the given one of those that call each other. -/
  | executing (program : String) (depth : Nat)
  /-- A statement is about to be executed. -/
  | statement (program : String) (index frames : Nat) (s : Statement)
  /-- A program executed `Stop`. -/
  | stopped (program : String) (frames : Nat)
  /-- A program ended inside blocks. -/
  | openBlocks (program : String) (frames : Nat)
  /-- A program finished without a fault. -/
  | finished (program : String) (s : Signal)
  /-- A binary operator was applied. -/
  | appliedBinary (symbol : String) (left right result : Value)
  /-- A unary operator or function was applied. -/
  | appliedUnary (symbol : String) (argument result : Value)
  /-- A command was registered. -/
  | registered (command : String)
  /-- A command refused its arguments. -/
  | rejected (command : String) (arguments : List (Option Value)) (f : Fault)
  /-- The memory was written out. -/
  | dumped (memory : String)
  /-- A session begins. -/
  | sessionStarted
  /-- A session is over. -/
  | sessionEnded
  /-- A line of a session failed. -/
  | refused (f : Fault) (line : String)
  /-- A failure with the number of its reason. -/
  | failed (code : Int) (message : String)
  /-- A plain note. -/
  | note (text : String)

/-- The value of a field of an entry. -/
inductive Field
  | text (s : String)
  | integer (n : Int)
deriving DecidableEq, Repr

/-- The written form of an event. -/
structure Entry where
  /-- How important it is. -/
  level : Level
  /-- What happened. -/
  message : String
  /-- Details by name. -/
  fields : List (String × Field)
deriving DecidableEq, Repr

namespace Event

/-- How important an event is. -/
def level : Event → Level
  | statement _ _ _ _ | openBlocks _ _ | finished _ _ | registered _ | rejected _ _ _ => .trace
  | normalized _ _ | lexed _ | parsed _ | loaded _ _ | executing _ _ | stopped _ _
  | appliedBinary _ _ _ _ | appliedUnary _ _ _ | refused _ _ | note _ => .debug
  | dumped _ | sessionStarted | sessionEnded => .info
  | failed _ _ => .error

/-- The message of an event. -/
def message : Event → String
  | normalized program text => s!"preprocess {program} -> {text}"
  | lexed t => s!"lex -> {t.describe}"
  | parsed s => s!"parse -> {s.describe}"
  | loaded _ _ => "loaded program"
  | executing _ _ => "executing program"
  | statement _ _ _ s => s.describe
  | stopped _ _ => "stop"
  | openBlocks _ _ => "program ended with open blocks"
  | finished _ _ => "program finished"
  | appliedBinary symbol l r v => s!"({symbol}) {l.text} {r.text} -> {v.text}"
  | appliedUnary symbol a v => s!"({symbol}) {a.text} -> {v.text}"
  | registered _ => "registered command"
  | rejected _ _ _ => "rejected arguments"
  | dumped _ => "memory dump"
  | sessionStarted => "session started"
  | sessionEnded => "session ended"
  | refused f _ => f.message
  | failed _ message => message
  | note text => text

/-- The details of an event. -/
def fields : Event → List (String × Field)
  | loaded program n => [("program", .text program), ("statements", .integer n)]
  | executing program depth => [("program", .text program), ("depth", .integer depth)]
  | statement program index frames _ =>
    [("program", .text program), ("pc", .integer index), ("frames", .integer frames)]
  | stopped program frames | openBlocks program frames =>
    [("program", .text program), ("frames", .integer frames)]
  | finished program s => [("program", .text program), ("signal", .text s.text)]
  | registered command => [("command", .text command)]
  | rejected command arguments f =>
    [("command", .text command), ("args", .text (", ".intercalate (arguments.map Value.textOf))),
      ("error", .text f.message)]
  | dumped memory => [("memory", .text memory)]
  | refused f line => [("kind", .text f.reason.describe), ("line", .text line)]
  | failed code _ => [("reason", .integer code), ("kind", .text (Reason.describeCode code))]
  | normalized _ _ | lexed _ | parsed _ | appliedBinary _ _ _ _ | appliedUnary _ _ _
  | sessionStarted | sessionEnded | note _ => []

/-- The written form of an event. -/
def entry (e : Event) : Entry := ⟨e.level, e.message, e.fields⟩

end Event

/-- A log with the least level that it keeps. -/
structure Log where
  /-- Events below this level are dropped. -/
  threshold : Level
  /-- The events that were kept, in their order. -/
  events : Array Event

namespace Log

/-- A log that has kept nothing yet. -/
def empty (threshold : Level) : Log := ⟨threshold, #[]⟩

/-- Records an event, if its level reaches the threshold. -/
def record (l : Log) (e : Event) : Log :=
  if l.threshold.rank ≤ e.level.rank then { l with events := l.events.push e } else l

/-- Records events in their order. -/
def recordAll (l : Log) (es : List Event) : Log := es.foldl record l

/-- The written form of the log. -/
def entries (l : Log) : List Entry := l.events.toList.map (·.entry)

end Log

end Handheld
