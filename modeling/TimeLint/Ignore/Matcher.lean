import TimeLint.Disk.Entry
import TimeLint.Ignore.Rule

/-!
Ignore files and what they ignore. A file speaks for the paths under its own directory. Without a
negated rule any rule that matches ignores; with one the last rule that matches decides. Several files
together ignore what one of them ignores, each asked only about paths under its directory.
-/

namespace TimeLint.Ignore

/-- Why a path has no answer: it lies outside the directory, or a rule that it meets has no meaning. -/
inductive Fault where
  | outside (path base : Path)
  | meaningless
deriving Repr, DecidableEq, Inhabited

def Fault.message : Fault → String
  | outside path base =>
    Text.quoted path.text ++ " is not in the subpath of " ++ Text.quoted base.text
      ++ " OR one path is relative and the other is absolute."
  | meaningless => "bad pattern"

structure File where
  base : Path
  rules : List Rule
deriving Repr, DecidableEq, Inhabited

namespace File

/-- The path as the rules see it. -/
def view (f : File) (path : Path) : Except Fault String :=
  match f.base.below? path.tidy with
  | some names => .ok (Path.relativeText names)
  | none => .error (.outside path.tidy f.base)

def ruleMatches (f : File) (path : Path) (r : Rule) : Except Fault Bool := do
  let text ← f.view path
  match r.matches? text with
  | some b => return b
  | none => .error .meaningless

/-- The first of the rules that matches. -/
def firstMatch (f : File) (path : Path) : List Rule → Except Fault (Option Rule)
  | [] => .ok none
  | r :: rest => do if ← f.ruleMatches path r then return some r else f.firstMatch path rest

def ignores (f : File) (path : Path) : Except Fault Bool := do
  if f.rules.any (·.negated) then
    return match ← f.firstMatch path f.rules.reverse with
      | some r => !r.negated
      | none => false
  else return (← f.firstMatch path f.rules).isSome

end File

inductive Matcher where
  | single (file : File)
  | union (files : List File)
deriving Repr, DecidableEq, Inhabited

namespace Matcher

/-- One file ignores the path; files that the path lies outside of are passed over. -/
def someIgnores (path : Path) : List File → Except Fault Bool
  | [] => .ok false
  | f :: rest =>
    match f.ignores path with
    | .ok true => .ok true
    | .ok false | .error (.outside _ _) => someIgnores path rest
    | .error .meaningless => .error .meaningless

def ignores (m : Matcher) (path : Path) : Except Fault Bool :=
  match m with
  | single f => f.ignores path
  | union fs => someIgnores path fs

end Matcher

end TimeLint.Ignore
