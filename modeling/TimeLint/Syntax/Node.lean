import TimeLint.Text.Bytes

/-!
Concrete syntax trees. A node knows its kind, its extent in the source, the field it fills in its
parent and its children, named nodes and bare tokens alike. `broken` says that the node or one below
it stands for text the grammar refuses.
-/

namespace TimeLint

/-- Row and column from zero; columns count bytes. -/
structure Point where
  row : Int
  column : Int
deriving Repr, DecidableEq, Inhabited

structure Extent where
  start : Int
  stop : Int
  first : Point
  last : Point
deriving Repr, DecidableEq, Inhabited

structure Node where
  kind : String
  extent : Extent
  named : Bool
  missing : Bool
  broken : Bool
  field : Option String
  children : List Node
deriving Repr, Inhabited

namespace Node

def start (n : Node) : Int := n.extent.start

def stop (n : Node) : Int := n.extent.stop

/-- A node of kind `ERROR`, or one the reader had to supply. -/
def isFault (n : Node) : Bool := n.kind == "ERROR" || n.missing

/-- The bytes the node covers, as text. -/
def text (source : Bytes) (n : Node) : String :=
  (source.slice n.start n.stop).decodeLossy

def hasField (name : String) (n : Node) : Bool := n.field == some name

/-- The first child in the field `name`. -/
def child? (name : String) (n : Node) : Option Node := n.children.find? (hasField name)

/-- Where the first child in the field `name` stands among the children. -/
def childIndex? (name : String) (n : Node) : Option Nat := n.children.findIdx? (hasField name)

def namedChildren (n : Node) : List Node := n.children.filter (·.named)

end Node

end TimeLint
