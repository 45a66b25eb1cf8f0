/-!
Expressions over characters. The places of a text are its suffixes, longest first, and a row says for
each place whether a match may go on there. `Expr.row` turns the row behind an expression into the row
before it, so that a match costs the size of the expression times the size of the text, however many
repetitions the expression holds.
-/

namespace TimeLint.Pattern

structure CharSet where
  negated : Bool
  ranges : List (Char × Char)
deriving Repr, DecidableEq, Inhabited

namespace CharSet

def any : CharSet := ⟨true, []⟩

def only (c : Char) : CharSet := ⟨false, [(c, c)]⟩

def except (c : Char) : CharSet := ⟨true, [(c, c)]⟩

def contains (s : CharSet) (c : Char) : Bool :=
  s.ranges.any (fun (lo, hi) => lo ≤ c && c ≤ hi) != s.negated

end CharSet

inductive Expr where
  | empty
  | start
  | lineEnd
  | one (set : CharSet)
  | many (set : CharSet)
  | seq (first second : Expr)
  | either (left right : Expr)
deriving Repr, DecidableEq, Inhabited

namespace Expr

def ofList (parts : List Expr) : Expr := parts.foldr seq empty

/-- Only the end of the text. -/
def endRow : List Char → List Bool
  | [] => [true]
  | _ :: rest => false :: endRow rest

/-- The end of the text, or the place before its last newline. -/
def lineEndRow : List Char → List Bool
  | [] => [true]
  | c :: rest => (c == '\n' && rest.isEmpty) :: lineEndRow rest

def openRow (text : List Char) : List Bool := List.replicate (text.length + 1) true

def startRow : List Bool → List Bool
  | [] => []
  | b :: rest => b :: rest.map fun _ => false

def oneRow (s : CharSet) : List Char → List Bool → List Bool
  | c :: cs, _ :: later => (s.contains c && later.headD false) :: oneRow s cs later
  | _, row => row.map fun _ => false

def manyRow (s : CharSet) : List Char → List Bool → List Bool
  | c :: cs, b :: later =>
    let rest := manyRow s cs later
    (b || (s.contains c && rest.headD false)) :: rest
  | _, row => row

def row (text : List Char) : Expr → List Bool → List Bool
  | empty, k => k
  | start, k => startRow k
  | lineEnd, k => List.zipWith (· && ·) (lineEndRow text) k
  | one s, k => oneRow s text k
  | many s, k => manyRow s text k
  | seq a b, k => row text a (row text b k)
  | either a b, k => List.zipWith (· || ·) (row text a k) (row text b k)

/-- The expression matches the text from its first character to its last. -/
def isWhole (e : Expr) (text : List Char) : Bool := (e.row text (endRow text)).headD false

/-- The expression matches somewhere in the text. -/
def occurs (e : Expr) (text : List Char) : Bool := (e.row text (openRow text)).any id

end Expr

end TimeLint.Pattern
