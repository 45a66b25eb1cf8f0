import TimeLint.Disk.Path
import TimeLint.Text.Bytes
import TimeLint.Text.Quoted

/-!
A disk is a list of places with what stands there: a file, a directory, or a link that names another
place. `locate` follows the links on the way and the last one too, `peek` leaves the last one alone.
After forty links an access is given up.
-/

namespace TimeLint

inductive Entry where
  | file (content : Bytes)
  | directory
  | link (target : String)
deriving Repr, DecidableEq, Inhabited

structure Disk where
  entries : List (Path × Entry)
deriving Repr, DecidableEq, Inhabited

namespace Disk

/-- Why a file cannot be opened. -/
inductive Fault where
  | missing
  | notDirectory
  | isDirectory
  | tooManyLinks
deriving Repr, DecidableEq, Inhabited

def Fault.message (path : Path) (f : Fault) : String :=
  let cause := match f with
    | missing => "[Errno 2] No such file or directory"
    | notDirectory => "[Errno 20] Not a directory"
    | isDirectory => "[Errno 21] Is a directory"
    | tooManyLinks => "[Errno 40] Too many levels of symbolic links"
  cause ++ ": " ++ Text.quoted path.text

/-- What stands at a place; the top of the disk is a directory. -/
def entry? (d : Disk) (place : Path) : Option Entry :=
  if place.isEmpty then some .directory else d.entries.lookup place

/-- Puts an entry at a place, over what stood there. -/
def put (d : Disk) (place : Path) (e : Entry) : Disk :=
  if d.entries.any (·.1 == place) then
    ⟨d.entries.map fun x => if x.1 == place then (place, e) else x⟩
  else ⟨d.entries ++ [(place, e)]⟩

/-- Goes through `names` from `base`. With `last` a link at the end is followed as well. -/
def follow (d : Disk) (last : Bool) (links : Nat) (base : Path) (names : List String) :
    Except Fault (Path × Entry) :=
  match names with
  | [] => .ok (base, (d.entry? base).getD .directory)
  | n :: rest =>
    if n == ".." then d.follow last links base.dropLast rest
    else
      match d.entry? (base ++ [n]) with
      | none => .error .missing
      | some .directory => d.follow last links (base ++ [n]) rest
      | some (.file content) =>
        if rest.isEmpty then .ok (base ++ [n], .file content) else .error .notDirectory
      | some (.link target) =>
        if rest.isEmpty && !last then .ok (base ++ [n], .link target)
        else
          match links with
          | 0 => .error .tooManyLinks
          | left + 1 =>
            d.follow last left (if Path.isAbsolute target then [] else base) (Path.names target ++ rest)
termination_by (links, names.length)
decreasing_by
  all_goals simp_wf
  all_goals first
    | exact Prod.Lex.right _ (by simp)
    | exact Prod.Lex.left _ _ (by omega)

def linkLimit : Nat := 40

def locate (d : Disk) (p : Path) : Except Fault (Path × Entry) := d.follow true linkLimit [] p

def peek (d : Disk) (p : Path) : Except Fault (Path × Entry) := d.follow false linkLimit [] p

def isFile (d : Disk) (p : Path) : Bool :=
  match d.locate p with
  | .ok (_, .file _) => true
  | _ => false

def isDirectory (d : Disk) (p : Path) : Bool :=
  match d.locate p with
  | .ok (_, .directory) => true
  | _ => false

def isLink (d : Disk) (p : Path) : Bool :=
  match d.peek p with
  | .ok (_, .link _) => true
  | _ => false

def read (d : Disk) (p : Path) : Except Fault Bytes :=
  match d.locate p with
  | .ok (_, .file content) => .ok content
  | .ok _ => .error .isDirectory
  | .error f => .error f

/-- Gives the file at a path new content; where no file is, nothing changes. -/
def write (d : Disk) (p : Path) (content : Bytes) : Disk :=
  match d.locate p with
  | .ok (place, .file _) => d.put place (.file content)
  | _ => d

/-- The directory called `name` in `base`, made if it is not there. -/
def enter (acc : Disk × Path) (name : String) : Disk × Path :=
  match acc.1.follow true linkLimit acc.2 [name] with
  | .ok (place, _) => (acc.1, place)
  | .error _ => (acc.1.put (acc.2 ++ [name]) .directory, acc.2 ++ [name])

/-- Puts an entry at a path and makes the directories above it. A file is written through a link. -/
def create (d : Disk) (p : Path) (e : Entry) : Disk :=
  match p.getLast? with
  | none => d
  | some name =>
    let (d, parent) := p.dropLast.foldl enter (d, [])
    match e, d.follow true linkLimit parent [name] with
    | .file content, .ok (place, .file _) => d.put place (.file content)
    | .directory, .ok _ => d
    | _, _ => d.put (parent ++ [name]) e

/-- The place lies under `base` and is reached from there through directories alone. -/
def reaches (d : Disk) (base place : Path) : Bool :=
  base.isPrefixOf place && base.length < place.length && (place.drop base.length).all Path.isName
    && (List.range' base.length (place.length - base.length)).all fun k =>
      d.entry? (place.take k) == some .directory

/-- Everything under a directory, at any depth; links are listed and not entered. Links on the way to the
directory itself are followed. -/
def below (d : Disk) (root : Path) : List Path :=
  match d.locate root with
  | .ok (base, .directory) =>
    ((d.entries.map (·.1)).filter (d.reaches base)).map fun place => root ++ place.drop base.length
  | _ => []

end Disk

end TimeLint
