import TimeLint.Ignore.Expression
import TimeLint.Text.Blank
import TimeLint.Text.Bytes

/-!
The lines of an ignore file. A line gives one rule or none; an exclamation mark in front turns the rule
round, a slash at the end ties it to directories, and a slash elsewhere ties it to the directory of the
file. `Rule.parse` refuses a line that runs out of characters while these marks are taken off.
-/

namespace TimeLint.Ignore

/-- An ignore rule; `expression` is `none` where the pattern of the line has no meaning, which shows
when the rule is first tried. -/
structure Rule where
  negated : Bool
  expression : Option Pattern.Expr
deriving Repr, DecidableEq, Inhabited

/-- Why an ignore file cannot be read: it is no text, or a line breaks off. -/
inductive Refusal where
  | notText
  | brokenLine
deriving Repr, DecidableEq, Inhabited

namespace Rule

/-- Two or more stars after a character that is no slash become one. -/
def mergeAfter : List Char → List Char
  | [] => []
  | c :: '*' :: '*' :: rest =>
    if c == '/' then c :: mergeAfter ('*' :: '*' :: rest)
    else c :: '*' :: mergeAfter (rest.dropWhile (· == '*'))
  | c :: rest => c :: mergeAfter rest
termination_by cs => cs.length
decreasing_by
  all_goals simp
  have := Pattern.length_dropWhile_le (· == '*') rest
  omega

/-- Two or more stars before a character that is no slash become one, and longer runs become two. -/
def mergeBefore : List Char → List Char
  | [] => []
  | '*' :: '*' :: rest =>
    match h : rest.dropWhile (· == '*') with
    | [] => ['*', '*']
    | c :: after => if c == '/' then '*' :: '*' :: mergeBefore (c :: after) else '*' :: c :: mergeBefore after
  | c :: rest => c :: mergeBefore rest
termination_by cs => cs.length
decreasing_by
  all_goals simp
  all_goals
    have := Pattern.length_dropWhile_le (· == '*') rest
    rw [h] at this
    simp at this
    omega

/-- Takes the spaces off the end, back to the last one that a backslash keeps; `i` is the place looked
at, and the first two characters are never spaces to take off. -/
def trimSpaces : Nat → Bool → List Char → List Char
  | 0, _, p => p
  | 1, _, p => p
  | i + 2, strip, p =>
    if p[i + 2]? != some ' ' then p
    else if p[i + 1]? == some '\\' then trimSpaces i false (p.take (i + 1) ++ p.drop (i + 2))
    else trimSpaces (i + 1) strip (if strip then p.take (i + 2) else p)

def dropSlash : List Char → List Char
  | '/' :: rest => rest
  | p => p

/-- Stands for a character that has to be there. -/
def demand (p : List Char) : Except Refusal Unit := if p.isEmpty then .error .brokenLine else .ok ()

def parseBody (negated : Bool) (line : List Char) : Except Refusal (Option Rule) := do
  let p := mergeBefore (mergeAfter line)
  if Text.trimEnd Text.isBlank p == ['/'] then return none
  demand p
  let directoryOnly := p.getLast? == some '/'
  let anchored := p.dropLast.contains '/'
  let p := dropSlash p
  demand p
  let anywhere := ['*', '*'].isPrefixOf p
  let p := if anywhere then p.drop 2 else p
  demand p
  let p := dropSlash p
  demand p
  let p := if p.getLast? == some '/' then p.dropLast else p
  demand p
  let p ← match p with
    | ['\\'] => .error .brokenLine
    | '\\' :: c :: rest => .ok (if c == '#' || c == '!' then c :: rest else p)
    | _ => .ok p
  let p := trimSpaces (p.length - 1) true p
  let front := if anchored && !anywhere then "^" else "(^|[/])"
  let back := if !directoryOnly then "$" else if negated then "/$" else "($|\\/)"
  match writeBody p with
  | none => .error .brokenLine
  | some body => return some ⟨negated, read? (front.toList ++ body ++ back.toList)⟩

def parse (line : List Char) : Except Refusal (Option Rule) :=
  if (Text.trim Text.isBlank line).isEmpty then .ok none
  else
    match line with
    | '#' :: _ => .ok none
    | '!' :: rest => parseBody true rest
    | _ => parseBody false line

/-- The rule's answer for a relative path, or nothing if its pattern has no meaning. -/
def matches? (r : Rule) (path : String) : Option Bool := r.expression.map (·.occurs path.toList)

end Rule

/-- The rules of an ignore file, in order. -/
def parse (content : Bytes) : Except Refusal (List Rule) :=
  match content.decode with
  | none => .error .notText
  | some text => do return (← (Text.lines text.toList).mapM Rule.parse).filterMap id

end TimeLint.Ignore
