import TimeLint.Text.Quoted

/-!
The switches of the command line and how an argument is taken for one. A long switch may be cut short
as long as one switch alone begins so, and a value may follow it after an equals sign. What looks like a
number or holds a space is no switch.
-/

namespace TimeLint.CommandLine

inductive Switch where
  | help
  | verbose
  | format
deriving Repr, DecidableEq, Inhabited

namespace Switch

def label : Switch → String
  | help => "-h/--help"
  | verbose => "-v/--verbose"
  | format => "--format"

def takesValue : Switch → Bool
  | format => true
  | _ => false

end Switch

/-- The names of switches at one level of the command line, with what they stand for. -/
abbrev Switches := List (String × Switch)

/-- Why a command line is refused. -/
inductive Problem where
  | ambiguous (argument : String) (names : List String)
  | uselessValue (switch : Switch) (value : String)
  | valueMissing (switch : Switch)
  | badChoice (name value : String) (choices : List String)
  | commandMissing
  | unrecognized (arguments : List String)
deriving Repr, DecidableEq, Inhabited

def Problem.message : Problem → String
  | ambiguous argument names =>
    "ambiguous option: " ++ argument ++ " could match " ++ ", ".intercalate names
  | uselessValue s value => "argument " ++ s.label ++ ": ignored explicit argument " ++ Text.quoted value
  | valueMissing s => "argument " ++ s.label ++ ": expected one argument"
  | badChoice name value choices =>
    "argument " ++ name ++ ": invalid choice: " ++ Text.quoted value ++ " (choose from "
      ++ ", ".intercalate (choices.map Text.quoted) ++ ")"
  | commandMissing => "the following arguments are required: command"
  | unrecognized arguments => "unrecognized arguments: " ++ " ".intercalate arguments

/-- A switch as it was found: under which name, and with which value attached. -/
structure Use where
  switch : Switch
  name : String
  value : Option String
deriving Repr, DecidableEq, Inhabited

/-- What an argument is: plain, the divider after which all are plain, or a switch, known or not. -/
inductive Mark where
  | plain
  | divider
  | switch (use : Option Use)
deriving Repr, DecidableEq, Inhabited

structure Item where
  text : String
  mark : Mark
deriving Repr, DecidableEq, Inhabited

namespace Item

def isSwitch (i : Item) : Bool :=
  match i.mark with
  | .switch _ => true
  | _ => false

def isPlain (i : Item) : Bool := i.mark == .plain

def isDivider (i : Item) : Bool := i.mark == .divider

end Item

/-- The text before the first equals sign and the text after it. -/
def splitValue (s : String) : String × Option String :=
  let front := s.toList.takeWhile (· != '=')
  match s.toList.dropWhile (· != '=') with
  | [] => (s, none)
  | _ :: value => (String.ofList front, some (String.ofList value))

/-- The uses that an argument with a dash in front may be short for. -/
def candidates (switches : Switches) (s : String) : List Use :=
  match s.toList with
  | '-' :: '-' :: _ =>
    let (front, value) := splitValue s
    (switches.filter fun (name, _) => front.toList.isPrefixOf name.toList).map fun (name, switch) =>
      ⟨switch, name, value⟩
  | a :: b :: rest =>
    (switches.filter fun (name, _) => name.toList == [a, b]).map fun (name, switch) =>
      ⟨switch, name, some (String.ofList rest)⟩
  | _ => []

/-- A dash, digits, and at most one point with digits after it. -/
def isNegativeNumber (s : String) : Bool :=
  match s.toList with
  | '-' :: rest =>
    match rest.dropWhile Char.isDigit with
    | [] => !rest.isEmpty
    | '.' :: decimals => !decimals.isEmpty && decimals.all Char.isDigit
    | _ => false
  | _ => false

/-- The switch named by the whole argument, or by what stands before its equals sign. -/
def namedUse? (switches : Switches) (s : String) : Option Use :=
  let (front, value) := splitValue s
  match switches.lookup s, switches.lookup front with
  | some switch, _ => some ⟨switch, s, none⟩
  | none, some switch => some ⟨switch, front, value⟩
  | none, none => none

def mark (switches : Switches) (s : String) : Except Problem Mark :=
  if s.toList.head? != some '-' || s == "-" then .ok .plain
  else
    match namedUse? switches s, candidates switches s with
    | some use, _ => .ok (.switch (some use))
    | none, [use] => .ok (.switch (some use))
    | none, [] =>
      if isNegativeNumber s || s.toList.contains ' ' then .ok .plain else .ok (.switch none)
    | none, uses => .error (.ambiguous s (uses.map (·.name)))

/-- Marks the arguments; behind the divider all are plain. -/
def items (switches : Switches) : List String → Except Problem (List Item)
  | [] => .ok []
  | s :: rest =>
    if s == "--" then .ok (⟨s, .divider⟩ :: rest.map (⟨·, .plain⟩))
    else do return ⟨s, ← mark switches s⟩ :: (← items switches rest)

end TimeLint.CommandLine
