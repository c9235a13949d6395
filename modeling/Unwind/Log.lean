/-!
# Log events

What a run reports while it works. Events are collected in order and filtered by level when the
run is over, so that no computation depends on the chosen level.
-/

namespace Unwind

/-- How important an event is, the most important first. -/
inductive Log.Level where
  | error
  | warn
  | info
  | debug
  | trace
deriving DecidableEq

namespace Log

/-- The rank of a level; a larger rank is more talkative. -/
def Level.rank : Level → Nat
  | error => 0
  | warn => 1
  | info => 2
  | debug => 3
  | trace => 4

/-- The level as it is written in front of an event. -/
def Level.text : Level → String
  | error => "ERROR"
  | warn => "WARN"
  | info => "INFO"
  | debug => "DEBUG"
  | trace => "TRACE"

/-- One reported event. -/
structure Event where
  level : Level
  message : String
deriving DecidableEq

end Log

/-- The events of a run, oldest first. -/
abbrev Log := Array Log.Event

namespace Log

/-- Append an event. -/
def add (log : Log) (level : Level) (message : String) : Log := log.push ⟨level, message⟩

/-- The events a reader sees who asked for `level`. -/
def visibleAt (log : Log) (level : Level) : List Event :=
  log.toList.filter fun event => event.level.rank ≤ level.rank

end Log

end Unwind
