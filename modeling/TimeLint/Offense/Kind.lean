/-!
What an offense is called, what is said about it, and what may be written in its place.
-/

namespace TimeLint.Offense

def rule : String := "Rails/Timecop"

/-- The constant whose uses are offenses. -/
def target : String := "Timecop"

def freezeTime : String := "freeze_time"

def travelBack : String := "travel_back"

inductive Kind where
  | noArgBareCall
  | callWithArguments
  | returnCall
  | travelCall
  | genericUsage
deriving Repr, DecidableEq, Inhabited

namespace Kind

def all : List Kind := [noArgBareCall, callWithArguments, returnCall, travelCall, genericUsage]

/-- The name used in reports. -/
def code : Kind → String
  | noArgBareCall => "no_arg_bare_call"
  | callWithArguments => "call_with_arguments"
  | returnCall => "return_call"
  | travelCall => "travel_call"
  | genericUsage => "generic_usage"

def ofCode? (s : String) : Option Kind := all.find? fun k => k.code == s

def message : Kind → String
  | noArgBareCall => "Use `freeze_time` instead of `Timecop.freeze`"
  | callWithArguments => "Use `travel` or `travel_to` instead of `Timecop.freeze`"
  | returnCall => "Use `travel_back` instead of `Timecop.return`"
  | travelCall =>
    "Use `travel` or `travel_to` instead of `Timecop.travel`. "
      ++ "If you need time to keep flowing, simulate it by travelling again."
  | genericUsage => "Use `ActiveSupport::Testing::TimeHelpers` instead of `Timecop`"

end Kind

inductive Correction where
  | freezeTime
  | travelBack
  | none
deriving Repr, DecidableEq, Inhabited

namespace Correction

def all : List Correction := [freezeTime, travelBack, none]

def code : Correction → String
  | freezeTime => "replace_with_freeze_time"
  | travelBack => "replace_with_travel_back"
  | none => "no_rewrite"

def ofCode? (s : String) : Option Correction := all.find? fun r => r.code == s

/-- The token written in place of receiver and selector. -/
def replacement? : Correction → Option String
  | freezeTime => some Offense.freezeTime
  | travelBack => some Offense.travelBack
  | none => Option.none

end Correction

end TimeLint.Offense
