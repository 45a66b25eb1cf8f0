import TimeLint.Pattern.Bracket
import TimeLint.Pattern.Expr

/-!
Glob patterns over whole paths. A star stands for any text, slashes included, and a question mark for
any character. In a bracketed set a leading exclamation mark negates, and a range that runs backwards
is dropped together with its two ends.
-/

namespace TimeLint.Pattern

namespace Glob

/-- Cuts a set at its range dashes: no dash before `least` divides, and two range dashes have at least
two characters between them. -/
def pieces (least : Nat) (body : List Char) : List (List Char) :=
  match h : (body.drop least).dropWhile (· != '-') with
  | [] => [body]
  | _ :: rest => (body.take least ++ (body.drop least).takeWhile (· != '-')) :: pieces 2 rest
termination_by body.length
decreasing_by
  have := length_dropWhile_le (· != '-') (body.drop least)
  simp [h] at this
  omega

/-- A dash that ends the set is a character of it. -/
def closeDash : List (List Char) → List (List Char)
  | [] => []
  | [p, []] => [p ++ ['-']]
  | p :: rest => p :: closeDash rest

/-- Puts a piece before the others, without the range between them if it runs backwards. -/
def joinPiece (p : List Char) : List (List Char) → List (List Char)
  | [] => [p]
  | q :: rest =>
    match p.getLast?, q.head? with
    | some lo, some hi => if hi < lo then (p.dropLast ++ q.tail) :: rest else p :: q :: rest
    | _, _ => p :: q :: rest

def singles (cs : List Char) : List (Char × Char) := cs.map fun c => (c, c)

/-- Between two pieces stands a range, or a plain dash where one of them has no end to offer. -/
def ranges : List Char → List (List Char) → List (Char × Char)
  | p, [] => singles p
  | p, q :: rest =>
    match p.getLast?, q with
    | some lo, hi :: more => singles p.dropLast ++ (lo, hi) :: ranges more rest
    | _, _ => singles p ++ ('-', '-') :: ranges q rest

def charSet (body : List Char) : CharSet :=
  let least := if body.head? == some '!' then 2 else 1
  match (closeDash (pieces least body)).foldr joinPiece [] with
  | [] => ⟨false, []⟩
  | ('!' :: p) :: rest => ⟨true, ranges p rest⟩
  | p :: rest => ⟨false, ranges p rest⟩

def parts : List Char → List Expr
  | [] => []
  | c :: cs =>
    if c == '*' then .many .any :: parts cs
    else if c == '?' then .one .any :: parts cs
    else if c == '[' then
      match h : bracket? cs with
      | some (body, rest) => .one (charSet body) :: parts rest
      | none => .one (.only c) :: parts cs
    else .one (.only c) :: parts cs
termination_by cs => cs.length
decreasing_by
  all_goals simp
  have := length_bracket? h
  omega

def expr (pattern : String) : Expr := .ofList (parts pattern.toList)

def fits (pattern path : String) : Bool := (expr pattern).isWhole path.toList

end Glob

/-- Some pattern of the list fits the path; an empty list fits nothing. -/
def fitsAny (patterns : List String) (path : String) : Bool := patterns.any (Glob.fits · path)

end TimeLint.Pattern
