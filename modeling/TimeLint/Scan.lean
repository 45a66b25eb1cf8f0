import TimeLint.Disk.Resolve
import TimeLint.Ignore.Matcher
import TimeLint.Log
import TimeLint.Pattern.Glob

/-!
Which files of a directory are checked: regular files whose name ends in `.rb`, at any depth, that no
ignore file covers and that the include and exclude patterns admit. They come in the order of their
relative paths.
-/

namespace TimeLint

/-- How files are chosen: patterns over relative paths, and whether ignore files in subdirectories
count as well. An empty list of include patterns admits every path. -/
structure Selection where
  included : List String := []
  excluded : List String := []
  nested : Bool := false
deriving Repr, DecidableEq, Inhabited

/-- The patterns admit the relative path. -/
def Selection.admits (s : Selection) (path : String) : Bool :=
  (s.included.isEmpty || Pattern.fitsAny s.included path) && !Pattern.fitsAny s.excluded path

namespace Scan

def ignoreName : String := ".gitignore"

def speaker : String := "scan.files"

/-- A regular file that is not reached by a link of its own. -/
def isPlainFile (d : Disk) (path : Path) : Bool := d.isFile path && !d.isLink path

def relative (root path : Path) : String := Path.relativeText (path.drop root.length)

/-- Order of relative paths by code points. -/
def precedes (root a b : Path) : Bool := relative root a ≤ relative root b

def readIgnore (d : Disk) (path : Path) : Except Ignore.Refusal Ignore.File := do
  match d.read path with
  | .ok content => return ⟨Path.tidy path.dropLast, ← Ignore.parse content⟩
  | .error _ => return ⟨Path.tidy path.dropLast, []⟩

/-- The ignore files that count, in the order of their relative paths. -/
def ignoreFiles (d : Disk) (root : Path) : List Path :=
  let found := (d.below root).filter fun p => p.getLast? == some ignoreName && isPlainFile d p
  found.eraseDups.mergeSort (precedes root)

/-- What decides on ignored paths; without an ignore file nothing does. -/
def matcher (d : Disk) (root : Path) (nested : Bool) : Except Ignore.Refusal (Option Ignore.Matcher) := do
  if nested then
    match ignoreFiles d root with
    | [] => return none
    | paths => return some (.union (← paths.mapM (readIgnore d)))
  else
    let path := root ++ [ignoreName]
    if d.isFile path then return some (.single (← readIgnore d path)) else return none

/-- The real place of the path lies in the real directory. -/
def isWithin (d : Disk) (root path : Path) : Bool :=
  match d.resolve path, d.resolve root with
  | some p, some r => r.isPrefixOf p
  | _, _ => false

def isIgnored (m : Option Ignore.Matcher) (path : Path) : Except Ignore.Fault Bool :=
  match m with
  | none => .ok false
  | some m => m.ignores path

/-- What becomes of a path: it is checked, an ignore file covers it, or it is passed over. -/
inductive Verdict where
  | chosen
  | ignored
  | passed
deriving Repr, DecidableEq, Inhabited

def verdict (d : Disk) (root : Path) (m : Option Ignore.Matcher) (s : Selection) (path : Path) :
    Except Ignore.Fault Verdict := do
  if !isPlainFile d path || !isWithin d root path then return .passed
  if ← isIgnored m path then return .ignored
  return if s.admits (relative root path) then .chosen else .passed

/-- Why files cannot be chosen: an ignore file cannot be read, or a rule in it has no meaning. -/
inductive Fault where
  | unreadable (refusal : Ignore.Refusal)
  | undecided (fault : Ignore.Fault)
deriving Repr, DecidableEq, Inhabited

def hasRubyName (path : Path) : Bool := (path.getLast?.getD "").endsWith ".rb"

/-- The paths that are looked at, in the order of their relative paths. -/
def candidates (d : Disk) (root : Path) : List Path :=
  ((d.below root).filter hasRubyName).eraseDups.mergeSort (precedes root)

structure Found where
  files : List Path
  log : List Log.Event
deriving Repr, DecidableEq, Inhabited

def Found.add (root path : Path) (v : Verdict) (f : Found) : Found :=
  match v with
  | .chosen => { f with files := path :: f.files }
  | .ignored =>
    { f with log := ⟨.debug, speaker, "Skipping gitignored file " ++ relative root path⟩ :: f.log }
  | .passed => f

/-- The chosen files of a directory. -/
def find (d : Disk) (root : Path) (s : Selection) : Except Fault Found := do
  let m ← (matcher d root s.nested).mapError .unreadable
  let verdicts ← ((candidates d root).mapM fun p => do return (p, ← verdict d root m s p)).mapError .undecided
  return verdicts.foldr (fun (p, v) found => found.add root p v) ⟨[], []⟩

end Scan

end TimeLint
