import RowFilter.Options
import RowFilter.Trace

/-!
# Logs

Where the reports of a compile go: nowhere, to a function of the host, or to the console. On
the console a line begins with a scope and the time.
-/

namespace RowFilter

inductive Sink where
  | silent
  /-- A function of the host that keeps what it is given. -/
  | host
  /-- A function that keeps nothing. -/
  | deaf
  | console (scope : String)
deriving DecidableEq

namespace Sink

/-- The scope of lines on the console, unless a host names another. -/
def defaultScope : String := "FilterCompiler"

/-- The sink behind a setting (`createDebugLogger`). What counts as no asks for silence
(`silentLogger`); a function is the sink itself; whatever else counts as yes asks for the
console. -/
def ofSetting (s : Setting) (scope : String) : Sink :=
  match s with
  | .value .function => .deaf
  | .value v => if v.isFalsy then .silent else .console scope
  | s => if s.isFunction then .host else .console scope

/-- Does a report go anywhere (`debugEnabled`)? -/
def isLive (sink : Sink) : Bool := sink ≠ .silent

/-- The parts of a line that a sink keeps of a report. -/
def line? (sink : Sink) (now message : String) (data : Value) : Option (List Value) :=
  let reported (kept : Bool) : List Value := .text message :: if kept then [data] else []
  match sink with
  | .silent | .deaf => none
  | .host => some (reported (match data with | .absent => false | _ => true))
  | .console scope =>
    some (.text ("[" ++ scope ++ " " ++ now ++ "]") :: reported !data.isFalsy)

/-- The lines kept of a trace. -/
def lines (sink : Sink) (now : String) (events : List Event) : List (List Value) :=
  events.filterMap fun e =>
    match e with
    | .logged message data => sink.line? now message (.ofEntries data)
    | .asked _ _ => none

end Sink
end RowFilter
