import TimeLint.Syntax.Node

/-!
A cursor is a node together with the way up to the root. Two nodes with the same content are told
apart by where they stand, so "is this the child its parent names `left`" is a question about
positions. `walk` visits a tree with a stack of pending cursors; `preorder` says the same order by
recursion on the tree.
-/

namespace TimeLint

/-- `above` holds the ancestors, nearest first, each with the index of the child below it. -/
structure Cursor where
  node : Node
  above : List (Node × Nat)
deriving Repr, Inhabited

namespace Node

mutual

/-- How many nodes the tree has. -/
def size : Node → Nat
  | ⟨_, _, _, _, _, _, cs⟩ => sizes cs + 1

def sizes : List Node → Nat
  | [] => 0
  | n :: ns => size n + sizes ns

end

theorem size_eq (n : Node) : n.size = sizes n.children + 1 := by
  cases n; rfl

end Node

namespace Cursor

def root (n : Node) : Cursor := ⟨n, []⟩

/-- The siblings `ns`, the first of which is child number `i` of `parent`. -/
def siblings (parent : Node) (above : List (Node × Nat)) : Nat → List Node → List Cursor
  | _, [] => []
  | i, n :: ns => ⟨n, (parent, i) :: above⟩ :: siblings parent above (i + 1) ns

def children (c : Cursor) : List Cursor := siblings c.node c.above 0 c.node.children

def parent? (c : Cursor) : Option Cursor :=
  match c.above with
  | [] => none
  | (p, _) :: rest => some ⟨p, rest⟩

/-- The node is what its parent's field `name` stands for: the first child in that field. -/
def fills (name : String) (c : Cursor) : Bool :=
  match c.above with
  | [] => false
  | (p, i) :: _ => p.childIndex? name == some i

/-- The pending cursors' total number of nodes. -/
def load : List Cursor → Nat
  | [] => 0
  | c :: cs => c.node.size + load cs

theorem load_append (cs ds : List Cursor) : load (cs ++ ds) = load cs + load ds := by
  induction cs with
  | nil => simp [load]
  | cons c cs ih => simp [load, ih, Nat.add_assoc]

theorem load_siblings (parent : Node) (above : List (Node × Nat)) (i : Nat) (ns : List Node) :
    load (siblings parent above i ns) = Node.sizes ns := by
  induction ns generalizing i with
  | nil => rfl
  | cons n ns ih => simpa [siblings, load, Node.sizes] using ih (i + 1)

theorem load_children (c : Cursor) : load c.children < c.node.size := by
  rw [children, load_siblings, Node.size_eq]; omega

theorem load_reverse (cs : List Cursor) : load cs.reverse = load cs := by
  induction cs with
  | nil => rfl
  | cons c cs ih => simp [load, load_append, ih, Nat.add_comm]

/-- One turn of a visit takes the last pending cursor and puts its children in its place, the first of them last. -/
def turn? (pending : Array Cursor) : Option (Cursor × Array Cursor) :=
  pending.back?.map fun c => (c, pending.pop ++ c.children.reverse)

theorem turn?_eq_some {pending rest : Array Cursor} {c : Cursor} (h : turn? pending = some (c, rest)) :
    ∃ others : Array Cursor, pending = others.push c ∧ rest.toList = others.toList ++ c.children.reverse := by
  obtain ⟨d, hd, heq⟩ := Option.map_eq_some_iff.1 h
  obtain ⟨rfl, rfl⟩ : d = c ∧ pending.pop ++ d.children.reverse = rest := by simpa using heq
  obtain ⟨others, rfl⟩ := Array.back?_eq_some_iff.1 hd
  exact ⟨others, rfl, by simp⟩

theorem load_turn {pending rest : Array Cursor} {c : Cursor} (h : turn? pending = some (c, rest)) :
    load rest.toList < load pending.toList := by
  obtain ⟨others, rfl, hrest⟩ := turn?_eq_some h
  have hc := load_children c
  simp only [hrest, Array.toList_push, load_append, load_reverse, load]
  omega

/-- Visits the pending cursors, the last one first, with all that is below each. -/
def walk (pending : Array Cursor) : List Cursor :=
  match _ : turn? pending with
  | none => []
  | some (c, rest) => c :: walk rest
termination_by load pending.toList
decreasing_by exact load_turn ‹_›

mutual

/-- The node at `above` and all below it, parents before children, children in order. -/
def preorder (above : List (Node × Nat)) : Node → List Cursor
  | ⟨k, e, n, m, b, f, cs⟩ =>
    let here : Node := ⟨k, e, n, m, b, f, cs⟩
    ⟨here, above⟩ :: preorders here above 0 cs

def preorders (parent : Node) (above : List (Node × Nat)) (i : Nat) : List Node → List Cursor
  | [] => []
  | n :: ns => preorder ((parent, i) :: above) n ++ preorders parent above (i + 1) ns

end

end Cursor

end TimeLint
