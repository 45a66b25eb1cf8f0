import TimeLint.Data.Value
import TimeLint.Text.Blank
import TimeLint.Text.Quoted

/-!
Values checked against what a record expects. All faults of a value are collected, each with the way
that leads to it; `both` keeps the faults of its first part before those of its second. Scalars are
taken generously: a number may come as text, and a boolean as a number or one of a few words.
-/

namespace TimeLint.Data

/-- One step from a value to a part of it. -/
inductive Step where
  | key (name : String)
  | index (position : Nat)
deriving Repr, DecidableEq, Inhabited

def Step.text : Step → String
  | key name => name
  | index position => toString position

inductive Problem where
  | boolWord
  | boolType
  | intText
  | intFraction
  | intInfinite
  | intSize
  | intType
  | stringType
  | listType
  | literal (options : List String)
  | member (options : List String)
  | required
  | forbidden
  | recordType (name : String)
deriving Repr, DecidableEq, Inhabited

namespace Problem

def code : Problem → String
  | boolWord => "bool_parsing"
  | boolType => "bool_type"
  | intText => "int_parsing"
  | intFraction => "int_from_float"
  | intInfinite => "finite_number"
  | intSize => "int_parsing_size"
  | intType => "int_type"
  | stringType => "string_type"
  | listType => "list_type"
  | literal _ => "literal_error"
  | member _ => "enum"
  | required => "missing"
  | forbidden => "extra_forbidden"
  | recordType _ => "model_type"

/-- Quoted options with commas between them and a word before the last. -/
def alternatives : List String → String
  | [] => ""
  | [a] => Text.quoted a
  | [a, b] => Text.quoted a ++ " or " ++ Text.quoted b
  | a :: rest => Text.quoted a ++ ", " ++ alternatives rest

def message : Problem → String
  | boolWord => "Input should be a valid boolean, unable to interpret input"
  | boolType => "Input should be a valid boolean"
  | intText => "Input should be a valid integer, unable to parse string as an integer"
  | intFraction => "Input should be a valid integer, got a number with a fractional part"
  | intInfinite => "Input should be a finite number"
  | intSize => "Unable to parse input string as an integer, exceeded maximum size"
  | intType => "Input should be a valid integer"
  | stringType => "Input should be a valid string"
  | listType => "Input should be a valid list"
  | literal options => "Input should be " ++ alternatives options
  | member options => "Input should be " ++ alternatives options
  | required => "Field required"
  | forbidden => "Extra inputs are not permitted"
  | recordType name => "Input should be a valid dictionary or instance of " ++ name

end Problem

structure Issue where
  location : List Step
  problem : Problem
deriving Repr, DecidableEq, Inhabited

/-- A value of the expected kind, or everything that is wrong with it. -/
abbrev Checked (α : Type) := Except (List Issue) α

namespace Checked

def fail {α : Type} (p : Problem) : Checked α := .error [⟨[], p⟩]

/-- The same faults, seen from one step further out. -/
def under {α : Type} (step : Step) (c : Checked α) : Checked α :=
  c.mapError (·.map fun i => { i with location := step :: i.location })

def both {α β : Type} (a : Checked α) (b : Checked β) : Checked (α × β) :=
  match a, b with
  | .ok x, .ok y => .ok (x, y)
  | .ok _, .error q => .error q
  | .error p, .ok _ => .error p
  | .error p, .error q => .error (p ++ q)

def elements {α : Type} (check : Value → Checked α) : Nat → List Value → Checked (List α)
  | _, [] => .ok []
  | n, v :: rest =>
    (both (under (.index n) (check v)) (elements check (n + 1) rest)).map fun (x, xs) => x :: xs

end Checked

namespace Value

def asString : Value → Checked String
  | string s => .ok s
  | _ => .fail .stringType

def asList {α : Type} (check : Value → Checked α) : Value → Checked (List α)
  | list items => Checked.elements check 0 items
  | _ => .fail .listType

def falseWords : List String := ["0", "off", "f", "false", "n", "no"]

def trueWords : List String := ["1", "on", "t", "true", "y", "yes"]

def asBool : Value → Checked Bool
  | bool b => .ok b
  | int n => if n == 0 then .ok false else if n == 1 then .ok true else .fail .boolWord
  | float f =>
    if f == 0 then .ok false
    else if f == 1 then .ok true
    else if isWhole f then .fail .boolWord
    else .fail .boolType
  | string s =>
    let word := s.toLower
    if falseWords.contains word then .ok false
    else if trueWords.contains word then .ok true
    else .fail .boolWord
  | _ => .fail .boolType

/-- Zeros in front are passed over, with a plus sign before them; a minus sign stays. -/
def skipZeros : List Char → Option (List Char)
  | '+' :: rest => go '+' rest
  | '0' :: rest => go '0' rest
  | c :: rest => if c == '-' || ('1' ≤ c && c ≤ '9') then some (c :: rest) else none
  | [] => none
where
  go (last : Char) : List Char → Option (List Char)
    | [] => some [last]
    | '.' :: rest => some (last :: '.' :: rest)
    | c :: rest =>
      if c == '0' || c == '_' then go c rest
      else if '1' ≤ c && c ≤ '9' then some (c :: rest)
      else none

/-- Cuts off a point that only zeros follow. -/
def dropZeroFraction (cs : List Char) : List Char :=
  match cs.dropWhile (· != '.') with
  | _ :: tail => if tail.all (· == '0') then cs.takeWhile (· != '.') else cs
  | [] => cs

/-- Underscores may stand one by one between digits. -/
def dropUnderscores (cs : List Char) : Option (List Char) :=
  let doubled := (cs.zip cs.tail).any fun (a, b) => a == '_' && b == '_'
  if cs.head? == some '_' || cs.getLast? == some '_' || doubled then none
  else some (cs.filter (· != '_'))

def digitsValue? (cs : List Char) : Option Nat :=
  match cs with
  | ['0'] => some 0
  | '0' :: _ => none
  | [] => none
  | _ => if cs.all Char.isDigit then some (cs.foldl (fun n c => n * 10 + (c.toNat - 48)) 0) else none

/-- The integer written in a text, if it is one. -/
def readInt? (s : String) : Option Int := do
  let cs ← skipZeros (Text.trim Text.isSpace s.toList)
  match ← dropUnderscores (dropZeroFraction cs) with
  | '-' :: digits => return -(← digitsValue? digits : Nat)
  | digits => return (← digitsValue? digits : Nat)

/-- Doubles of this size and beyond are not taken for integers. -/
def floatLimit : Float := 9223372036854775808

def asInt : Value → Checked Int
  | int n => .ok n
  | bool b => .ok (if b then 1 else 0)
  | float f =>
    if !f.isFinite then .fail .intInfinite
    else if !isWhole f then .fail .intFraction
    else if -floatLimit < f && f < floatLimit then .ok f.toInt64.toInt
    else .fail .intSize
  | string s =>
    match readInt? s with
    | some n => .ok n
    | none => .fail .intText
  | _ => .fail .intType

/-- The text is one of the options. -/
def asOneOf {α : Type} (problem : Problem) (options : List (String × α)) : Value → Checked α
  | string s =>
    match options.lookup s with
    | some a => .ok a
    | none => .fail problem
  | _ => .fail problem

def asTable (name : String) : Value → Checked (List (String × Value))
  | table rows => .ok rows
  | _ => .fail (.recordType name)

end Value

/-- A row that has to be there. -/
def required {α : Type} (rows : List (String × Value)) (name : String) (check : Value → Checked α) :
    Checked α :=
  match rows.lookup name with
  | some v => .under (.key name) (check v)
  | none => .under (.key name) (.fail .required)

/-- A row that may be left out. -/
def optional {α : Type} (rows : List (String × Value)) (name : String) (default : α)
    (check : Value → Checked α) : Checked α :=
  match rows.lookup name with
  | some v => .under (.key name) (check v)
  | none => .ok default

/-- No rows but those named. -/
def only (rows : List (String × Value)) (names : List String) : Checked Unit :=
  match (rows.map (·.1)).filter fun k => !names.contains k with
  | [] => .ok ()
  | extra => .error (extra.map fun k => ⟨[.key k], .forbidden⟩)

end TimeLint.Data
