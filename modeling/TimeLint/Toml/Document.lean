import TimeLint.Toml.Scalar

/-!
Settings files: keys, values, tables and lists of tables. Names may be dotted, and a table may be written
in several places as long as no place contradicts another; `Flags` remembers which names are closed to
which later use. Arrays and tables written in one place are closed for good.
-/

namespace TimeLint.Toml

open Data (Value)

abbrev Table := List (String × Value)

inductive Flag where
  | frozen
  | explicit
deriving Repr, DecidableEq, Inhabited

/-- A mark on a name, and on every name below it if it is deep. -/
structure Mark where
  key : Key
  flag : Flag
  deep : Bool
deriving Repr, DecidableEq, Inhabited

abbrev Flags := List Mark

namespace Flags

def holds (marks : Flags) (key : Key) (flag : Flag) : Bool :=
  marks.any fun m => m.flag == flag && (m.key == key || (m.deep && m.key.isPrefixOf key))

def clear (marks : Flags) (key : Key) : Flags := marks.filter fun m => !key.isPrefixOf m.key

end Flags

namespace Table

def set (t : Table) (name : String) (v : Value) : Table :=
  if t.any (·.1 == name) then t.map fun row => if row.1 == name then (name, v) else row else t ++ [(name, v)]

/-- Changes the table behind a key and makes those on the way. With `lists` the way goes through the
last table of a list. -/
def update (lists : Bool) (change : Table → Except Problem Table) : Key → Table → Except Problem Table
  | [], t => change t
  | name :: rest, t =>
    match t.lookup name with
    | none => do return set t name (.table (← update lists change rest []))
    | some (.table inner) => do return set t name (.table (← update lists change rest inner))
    | some (.list items) =>
      match lists, items.getLast? with
      | true, some (.table inner) => do
        return set t name (.list (items.dropLast ++ [.table (← update lists change rest inner)]))
      | _, _ => .error .overwritten
    | some _ => .error .overwritten

def insert (duplicate : Problem) (name : String) (v : Value) (t : Table) : Except Problem Table :=
  if t.any (·.1 == name) then .error duplicate else .ok (set t name v)

/-- Puts an empty table at the end of the list behind a name. -/
def extend (name : String) (t : Table) : Except Problem Table :=
  match t.lookup name with
  | none => .ok (set t name (.list [.table []]))
  | some (.list items) => .ok (set t name (.list (items ++ [.table []])))
  | some _ => .error .overwritten

end Table

def parent (key : Key) : Key := key.dropLast

def stem (key : Key) : String := key.getLast?.getD ""

def isContainer : Value → Bool
  | .list _ => true
  | .table _ => true
  | _ => false

def isBare (c : Char) : Bool := c.isAlphanum || c == '-' || c == '_'

def keyPart : Reader String := fun cs =>
  match cs with
  | '\'' :: rest => literalString rest
  | '"' :: rest => basicString false rest
  | c :: rest =>
    if isBare c then .ok (String.ofList (cs.takeWhile isBare), cs.dropWhile isBare)
    else fault .keyStart (c :: rest)
  | [] => fault .keyStart []

/-- Key parts with dots between them. -/
def keyFrom : Nat → Reader Key
  | 0, cs => fault .keyStart cs
  | fuel + 1, cs => do
    let (part, rest) ← keyPart cs
    match rest.dropWhile isSpace with
    | '.' :: more => do
      let (key, after) ← keyFrom fuel (more.dropWhile isSpace)
      return (part :: key, after)
    | after => return ([part], after)

def readKey : Reader Key := fun cs => keyFrom (cs.length + 1) cs

/-- Skips blanks, newlines and comments. -/
def skipLines : Nat → List Char → Except Fault (List Char)
  | 0, cs => .ok cs
  | fuel + 1, cs => do
    let rest ← skipComment (cs.dropWhile isSpaceOrNewline)
    if rest.length == cs.length then return rest else skipLines fuel rest

def skipBlanks (cs : List Char) : Except Fault (List Char) := skipLines (cs.length + 1) cs

/-- A change to a table, with its failure placed at the unread text. -/
def placed {α : Type} (unread : List Char) (r : Except Problem α) : Except Fault α :=
  r.mapError fun p => ⟨p, unread⟩

/-- Adds a row to a table written in one place. -/
def inlineRow (marks : Flags) (t : Table) (key : Key) (v : Value) : Except Problem Table :=
  if marks.holds key .frozen then .error (.frozen key)
  else Table.update false (Table.insert (.duplicate (stem key)) (stem key) v) (parent key) t

mutual

/-- A value; `depth` bounds how deep and how far values stand in one another. -/
def value : Nat → Reader Value
  | 0, cs => fault .invalidValue cs
  | depth + 1, cs =>
    match stringValue? cs with
    | some result => result.map fun (s, rest) => (.string s, rest)
    | none =>
      match wordValue? wordValues cs, cs with
      | some found, _ => .ok found
      | none, '[' :: rest => do
        match ← skipBlanks rest with
        | ']' :: after => return (.list [], after)
        | inner => do
          let (items, after) ← elements depth inner
          return (.list items, after)
      | none, '\x7b' :: rest =>
        match rest.dropWhile isSpace with
        | '\x7d' :: after => .ok (.table [], after)
        | inner => do
          let (rows, after) ← inlineRows depth [] [] inner
          return (.table rows, after)
      | none, _ => plainValue cs

/-- The elements of an array from one of them on. -/
def elements : Nat → Reader (List Value)
  | 0, cs => fault .unclosedArray cs
  | depth + 1, cs => do
    let (v, rest) ← value depth cs
    match ← skipBlanks rest with
    | ']' :: after => return ([v], after)
    | ',' :: more =>
      match ← skipBlanks more with
      | ']' :: after => return ([v], after)
      | next => do
        let (items, after) ← elements depth next
        return (v :: items, after)
    | unread => fault .unclosedArray unread

/-- The rows of a table written in one place, from one of them on. -/
def inlineRows : Nat → Flags → Table → Reader Table
  | 0, _, _, cs => fault .unclosedTable cs
  | depth + 1, marks, t, cs => do
    let (key, v, rest) ← pair depth cs
    let t ← placed rest (inlineRow marks t key v)
    match rest.dropWhile isSpace with
    | '\x7d' :: after => return (t, after)
    | ',' :: more =>
      let marks := if isContainer v then ⟨key, .frozen, true⟩ :: marks else marks
      inlineRows depth marks t (more.dropWhile isSpace)
    | unread => fault .unclosedTable unread

/-- A key and its value. -/
def pair : Nat → List Char → Except Fault (Key × Value × List Char)
  | 0, cs => fault .invalidValue cs
  | depth + 1, cs => do
    let (key, rest) ← readKey cs
    match rest with
    | '=' :: more => do
      let (v, after) ← value depth (more.dropWhile isSpace)
      return (key, v, after)
    | _ => fault .expectedEquals rest

end

/-- What has been read so far: the document, the marks on its names, the marks that take effect with the
next header, and the table that rows go to. -/
structure State where
  table : Table
  marks : Flags
  pending : Flags
  header : Key

namespace State

/-- Dotted names on the way to a row, from the header on. -/
def containers (s : State) (key : Key) : List Key :=
  (List.range (key.length - 1)).map fun i => s.header ++ key.take (i + 1)

def addRow (s : State) (key : Key) (v : Value) : Except Problem State := do
  let containers := s.containers key
  match containers.find? fun k => s.marks.holds k .explicit with
  | some k => .error (.redefined k)
  | none =>
    let above := s.header ++ parent key
    if s.marks.holds above .frozen then .error (.frozen above)
    else
      let table ← Table.update true (Table.insert .overwritten (stem key) v) above s.table
      let marks := if isContainer v then ⟨s.header ++ key, .frozen, true⟩ :: s.marks else s.marks
      return { s with table, marks, pending := containers.map (⟨·, .explicit, false⟩) ++ s.pending }

def settle (s : State) : State := { s with marks := s.pending ++ s.marks, pending := [] }

def openTable (s : State) (key : Key) : Except Problem State := do
  if s.marks.holds key .explicit || s.marks.holds key .frozen then .error (.declaredTwice key)
  else
    let table ← Table.update true .ok key s.table
    return { s with table, marks := ⟨key, .explicit, false⟩ :: s.marks, header := key }

def extendList (s : State) (key : Key) : Except Problem State := do
  if s.marks.holds key .frozen then .error (.frozen key)
  else
    let table ← Table.update true (Table.extend (stem key)) (parent key) s.table
    return { s with table, marks := ⟨key, .explicit, false⟩ :: s.marks.clear key, header := key }

end State

/-- A header in brackets, which moves to another table. -/
def header (s : State) : List Char → Except Fault (State × List Char)
  | '[' :: '[' :: rest => do
    let (key, rest) ← readKey (rest.dropWhile isSpace)
    let s ← placed rest (s.settle.extendList key)
    match rest with
    | ']' :: ']' :: after => return (s, after)
    | _ => fault .expectedListEnd rest
  | cs => do
    let (key, rest) ← readKey ((cs.drop 1).dropWhile isSpace)
    let s ← placed rest (s.settle.openTable key)
    match rest with
    | ']' :: after => return (s, after)
    | _ => fault .expectedTableEnd rest

/-- A row, a header, or nothing before a comment. -/
def statement (s : State) (cs : List Char) : Except Fault (State × List Char) :=
  match cs with
  | [] => .ok (s, [])
  | c :: _ =>
    if isBare c || c == '"' || c == '\'' then do
      let (key, v, rest) ← pair (2 * cs.length + 2) cs
      return (← placed rest (s.addRow key v), rest)
    else if c == '[' then header s cs
    else if c == '#' then .ok (s, cs)
    else fault .invalidStatement cs

def statements : Nat → State → List Char → Except Fault Table
  | 0, s, _ => .ok s.table
  | fuel + 1, s, cs =>
    match cs.dropWhile isSpace with
    | [] => .ok s.table
    | '\n' :: rest => statements fuel s rest
    | cs => do
      let (s, rest) ← statement s cs
      match ← skipComment (rest.dropWhile isSpace) with
      | [] => return s.table
      | '\n' :: rest => statements fuel s rest
      | unread => fault .expectedLineEnd unread

/-- The text with every line ended by a newline alone. -/
def unifyNewlines : List Char → List Char
  | '\r' :: '\n' :: rest => '\n' :: unifyNewlines rest
  | c :: rest => c :: unifyNewlines rest
  | [] => []

/-- The table that a settings file holds; `text` is the file with its newlines unified. -/
def parse (text : List Char) : Except Fault Table :=
  statements (text.length + 1) ⟨[], [], [], []⟩ text

end TimeLint.Toml
