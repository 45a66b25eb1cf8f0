/-!
Paths are lists of names from the top of the disk down. A path may hold the name `..`, which means the
directory above; `tidy` takes such names out by their position alone, without a look at the disk.
-/

namespace TimeLint

abbrev Path := List String

namespace Path

def text (p : Path) : String := "/" ++ "/".intercalate p

/-- The text of a path seen from a directory above it. -/
def relativeText : List String → String
  | [] => "."
  | names => "/".intercalate names

/-- The names in a text; empty names and single dots are left out. -/
def names (s : String) : List String := (s.splitOn "/").filter fun n => n != "" && n != "."

/-- What an entry of a directory may be called. -/
def isName (n : String) : Bool := n != "" && n != "." && n != ".." && !n.toList.contains '/'

def isAbsolute (s : String) : Bool := s.toList.head? == some '/'

/-- The path that the text names from `base`. -/
def join (base : Path) (s : String) : Path := if isAbsolute s then names s else base ++ names s

def tidy (p : Path) : Path := p.foldl (fun above n => if n == ".." then above.dropLast else above ++ [n]) []

/-- What follows `base` in the path. -/
def below? (base p : Path) : Option (List String) :=
  if base.isPrefixOf p then some (p.drop base.length) else none

end Path

end TimeLint
