import TimeLint.CommandLine.Switch
import TimeLint.Report.Record

/-!
The command line in two levels: switches and a command, then the switches and the directory of that
command. Switches act in the order they are given in, so that help asked for before a mistake is still
given. Arguments that nothing takes are refused at the end.
-/

namespace TimeLint.CommandLine

inductive Command where
  | check
  | fix
deriving Repr, DecidableEq, Inhabited

namespace Command

def all : List Command := [check, fix]

def name : Command → String
  | check => "check"
  | fix => "fix"

end Command

/-- The level that speaks: the program, or one of its commands. -/
abbrev Level := Option Command

/-- Why parsing stops before a request is complete. -/
inductive Stop where
  | help (level : Level)
  | refused (level : Level) (problem : Problem)
deriving Repr, DecidableEq, Inhabited

structure Request where
  verbose : Bool
  command : Command
  root : String
  format : Option Report.Format
deriving Repr, DecidableEq, Inhabited

def programSwitches : Switches :=
  [("-h", .help), ("--help", .help), ("-v", .verbose), ("--verbose", .verbose)]

def commandSwitches : Switches := [("-h", .help), ("--help", .help), ("--format", .format)]

/-- The uses in one argument: short switches may stand together behind one dash. `rest` tells whether a
value can be taken from the next argument; the result says whether it was. -/
def uses (switches : Switches) (next : Option String) : Nat → Use → Except Problem (List Use × Bool)
  | 0, use => .error (.uselessValue use.switch (use.value.getD ""))
  | fuel + 1, use =>
    match use.value with
    | none =>
      if !use.switch.takesValue then .ok ([use], false)
      else
        match next with
        | some value => .ok ([{ use with value := some value }], true)
        | none => .error (.valueMissing use.switch)
    | some value =>
      if use.switch.takesValue then .ok ([use], false)
      else
        match value.toList, use.name.toList with
        | c :: more, '-' :: '-' :: _ => .error (.uselessValue use.switch (String.ofList (c :: more)))
        | c :: more, _ =>
          let name := String.ofList ['-', c]
          let left := if more.isEmpty then none else some (String.ofList more)
          match switches.lookup name with
          | none => .error (.uselessValue use.switch value)
          | some switch => do
            let (others, taken) ← uses switches next fuel ⟨switch, name, left⟩
            return ({ use with value := none } :: others, taken)
        | [], _ => .error (.uselessValue use.switch "")

/-- What a level does with its arguments: how a switch acts, how many arguments its positional takes
from the front (if it can), and how that acts. -/
structure Handler (σ : Type) where
  level : Level
  switches : Switches
  act : σ → Use → Except Stop σ
  width : List Item → Option Nat
  take : σ → List String → Except Stop σ

/-- Where a level stands: its state, whether its positional is still to come, and what nothing took. -/
structure Place (σ : Type) where
  state : σ
  awaits : Bool
  extra : List String

namespace Handler

variable {σ : Type} (h : Handler σ)

def refuse {α : Type} (r : Except Problem α) : Except Stop α := r.mapError (.refused h.level)

/-- A switch and, if it takes one, its value: the state after it and how many further arguments it used. -/
def switch (p : Place σ) (item : Item) (rest : List Item) : Except Stop (Place σ × Nat) :=
  match item.mark with
  | .switch (some use) => do
    let next := (rest.head?.filter Item.isPlain).map (·.text)
    let (used, taken) ← h.refuse (uses h.switches next (item.text.length + 1) use)
    return ({ p with state := ← used.foldlM h.act p.state }, if taken then 1 else 0)
  | _ => .ok ({ p with extra := p.extra ++ [item.text] }, 0)

/-- The positional at the front of the arguments, if it can stand there. -/
def positional (p : Place σ) (items : List Item) : Except Stop (Place σ × Nat) :=
  match p.awaits, h.width items with
  | true, some n => do
    let state ← h.take p.state ((items.take n).map (·.text))
    return ({ p with state, awaits := false }, n)
  | _, _ => .ok (p, 0)

/-- Goes through the arguments as long as a switch is among them. -/
def walk (p : Place σ) (items : List Item) : Except Stop (Place σ) :=
  match items with
  | [] => do return (← h.positional p []).1
  | item :: rest =>
    if !(item :: rest).any Item.isSwitch then do
      let (p, n) ← h.positional p (item :: rest)
      return { p with extra := p.extra ++ ((item :: rest).drop n).map (·.text) }
    else if item.isSwitch then do
      let (p, n) ← h.switch p item rest
      walk p (rest.drop n)
    else do
      match ← h.positional p (item :: rest) with
      | (p, n + 1) => walk p (rest.drop n)
      | (p, 0) =>
        let passed := (item :: rest.takeWhile (!·.isSwitch)).map (·.text)
        walk { p with extra := p.extra ++ passed } (rest.drop (rest.takeWhile (!·.isSwitch)).length)
termination_by items.length
decreasing_by
  all_goals simp only [List.length_cons, List.length_drop]
  all_goals omega

def run (state : σ) (arguments : List String) : Except Stop (Place σ) := do
  h.walk ⟨state, true, []⟩ (← h.refuse (items h.switches arguments))

end Handler

/-- The directory and format given to a command. -/
structure Target where
  root : String
  format : Option Report.Format
deriving Repr, DecidableEq, Inhabited

def formatOf (value : String) : Except Problem Report.Format :=
  match Report.Format.all.find? (·.code == value) with
  | some f => .ok f
  | none => .error (.badChoice "--format" value (Report.Format.all.map (·.code)))

/-- A command takes one argument or none, with a divider on either side. -/
def targetWidth (items : List Item) : Option Nat :=
  let dividers := (items.takeWhile Item.isDivider).length
  let plain := ((items.drop dividers).take 1).countP Item.isPlain
  let after := ((items.drop (dividers + plain)).takeWhile Item.isDivider).length
  some (dividers + plain + after)

def targetHandler (command : Command) : Handler Target where
  level := some command
  switches := commandSwitches
  act := fun t use =>
    match use.switch with
    | .format => do
      let format ← (formatOf (use.value.getD "")).mapError (.refused (some command))
      return { t with format := some format }
    | _ => .error (.help (some command))
  width := targetWidth
  take := fun t arguments =>
    match arguments.erase "--" with
    | [] => .ok t
    | root :: _ => .ok { t with root }

/-- What has been said before and with the command. -/
structure Reading where
  verbose : Bool
  command : Option (Command × Target)
  extra : List String
deriving Repr, DecidableEq, Inhabited

/-- The command takes all that follows it. -/
def commandWidth (items : List Item) : Option Nat :=
  match items.dropWhile Item.isDivider with
  | item :: _ => if item.isPlain then some items.length else none
  | [] => none

def commandOf (name : String) : Except Problem Command :=
  match Command.all.find? (·.name == name) with
  | some c => .ok c
  | none => .error (.badChoice "command" name (Command.all.map (·.name)))

def programHandler : Handler Reading where
  level := none
  switches := programSwitches
  act := fun r use =>
    match use.switch with
    | .verbose => .ok { r with verbose := true }
    | _ => .error (.help none)
  width := commandWidth
  take := fun r arguments =>
    match arguments with
    | [] => .ok r
    | name :: rest => do
      let command ← (commandOf name).mapError (.refused none)
      let place ← (targetHandler command).run ⟨".", none⟩ rest
      return { r with command := some (command, place.state), extra := place.extra }

def parse (arguments : List String) : Except Stop Request := do
  let place ← programHandler.run ⟨false, none, []⟩ arguments
  match place.state.command, place.extra ++ place.state.extra with
  | none, _ => .error (.refused none .commandMissing)
  | some (command, target), [] => return ⟨place.state.verbose, command, target.root, target.format⟩
  | some _, extra => .error (.refused none (.unrecognized extra))

end TimeLint.CommandLine
