/-!
What a run reports about itself while it goes on: a level, the part of the program that speaks, and a
message.
-/

namespace TimeLint.Log

inductive Level where
  | debug
  | info
  | error
deriving Repr, DecidableEq, Inhabited

namespace Level

def name : Level → String
  | debug => "DEBUG"
  | info => "INFO"
  | error => "ERROR"

end Level

structure Event where
  level : Level
  speaker : String
  message : String
deriving Repr, DecidableEq, Inhabited

/-- An event on a line. -/
def Event.line (e : Event) : String := e.level.name ++ " " ++ e.speaker ++ ": " ++ e.message

/-- The events that are shown: all of them, or only what went wrong. -/
def shown (verbose : Bool) (events : List Event) : List Event :=
  if verbose then events else events.filter (·.level == .error)

end TimeLint.Log
