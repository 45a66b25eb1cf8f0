import TimeLint.Pattern.Bracket
import TimeLint.Pattern.Expr

/-!
An ignore pattern is first written out as an expression over relative paths and then read. The two steps
are apart because a set that loses its only member, as `[!/]` does, stays open and takes in what was
written after it, up to the next closing bracket. `write` fails on a set with nothing in it, `read` on
a text that is no expression.
-/

namespace TimeLint.Ignore

open Pattern (bracket? length_bracket? CharSet Expr)

/-- A bracketed set. A slash is never a member. -/
def writeSet (body : List Char) : Option (List Char) :=
  let plain := (body.filter (· != '/')).flatMap fun c => if c == '\\' then ['\\', '\\'] else [c]
  match plain with
  | [] => none
  | '!' :: rest => some ('[' :: '^' :: rest ++ [']'])
  | '^' :: rest => some ('[' :: '\\' :: '^' :: rest ++ [']'])
  | _ => some ('[' :: plain ++ [']'])

/-- One star stays inside a name, two cross slashes, and two before a slash stand for any directories. -/
def writeBody : List Char → Option (List Char)
  | [] => some []
  | '*' :: '*' :: '/' :: rest => ("(.*[/])?".toList ++ ·) <$> writeBody rest
  | '*' :: '*' :: rest => (".*".toList ++ ·) <$> writeBody rest
  | c :: rest =>
    if c == '*' then ("[^/]*".toList ++ ·) <$> writeBody rest
    else if c == '?' then ("[^/]".toList ++ ·) <$> writeBody rest
    else if c == '/' then ("[/]".toList ++ ·) <$> writeBody rest
    else if c == '[' then
      match h : bracket? rest with
      | some (body, after) => do return (← writeSet body) ++ (← writeBody after)
      | none => (['\\', c] ++ ·) <$> writeBody rest
    else (['\\', c] ++ ·) <$> writeBody rest
termination_by cs => cs.length
decreasing_by
  all_goals simp
  all_goals try omega
  have := length_bracket? h
  omega

/-- A character of a set, which a backslash may precede. -/
def readMember? : List Char → Option (Char × List Char)
  | '\\' :: c :: rest => some (c, rest)
  | c :: rest => some (c, rest)
  | [] => none

/-- The members of a set up to its closing bracket; a bracket that comes first is a member. -/
def readMembers? : Nat → Bool → List Char → Option (List (Char × Char) × List Char)
  | 0, _, _ => none
  | fuel + 1, isFirst, cs =>
    match cs, isFirst with
    | ']' :: rest, false => some ([], rest)
    | _, _ => do
      let (lo, rest) ← readMember? cs
      match rest with
      | '-' :: ']' :: after => return ([(lo, lo), ('-', '-')], after)
      | '-' :: more =>
        let (hi, after) ← readMember? more
        if hi < lo then none
        else do
          let (members, after) ← readMembers? fuel false after
          return ((lo, hi) :: members, after)
      | _ =>
        let (members, after) ← readMembers? fuel false rest
        return ((lo, lo) :: members, after)

def readSet? : List Char → Option (CharSet × List Char)
  | '[' :: '^' :: rest => do
    let (members, after) ← readMembers? (rest.length + 1) true rest
    return (⟨true, members⟩, after)
  | '[' :: rest => do
    let (members, after) ← readMembers? (rest.length + 1) true rest
    return (⟨false, members⟩, after)
  | '.' :: rest => some (.except '\n', rest)
  | '\\' :: c :: rest => some (.only c, rest)
  | c :: rest => if "()|?*".contains c then none else some (.only c, rest)
  | [] => none

def readItem? : List Char → Option (Expr × List Char)
  | '^' :: rest => some (.start, rest)
  | '$' :: rest => some (.lineEnd, rest)
  | cs => do
    let (s, rest) ← readSet? cs
    match rest with
    | '*' :: after => return (.many s, after)
    | _ => return (.one s, rest)

/-- Items up to the end of the text or a character that divides groups. -/
def readItems? : Nat → List Char → Option (Expr × List Char)
  | 0, cs => some (.empty, cs)
  | fuel + 1, cs =>
    match cs with
    | [] => some (.empty, [])
    | c :: _ =>
      if "()|".contains c then some (.empty, cs)
      else do
        let (item, rest) ← readItem? cs
        let (items, after) ← readItems? fuel rest
        return (.seq item items, after)

/-- A group holds two choices, or one that may be left out. -/
def readGroup? (cs : List Char) : Option (Expr × List Char) := do
  match ← readItems? cs.length cs with
  | (left, '|' :: rest) =>
    match ← readItems? rest.length rest with
    | (right, ')' :: after) => return (.either left right, after)
    | _ => none
  | (inner, ')' :: '?' :: after) => return (.either inner .empty, after)
  | _ => none

def readGroups? : Nat → List Char → Option Expr
  | 0, _ => none
  | fuel + 1, cs => do
    let (items, rest) ← readItems? cs.length cs
    match rest with
    | [] => return items
    | '(' :: more =>
      let (group, after) ← readGroup? more
      return .seq items (.seq group (← readGroups? fuel after))
    | _ => none

def read? (text : List Char) : Option Expr := readGroups? (text.length + 1) text

end TimeLint.Ignore
