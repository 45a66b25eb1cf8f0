import TimeLint.Syntax.Cursor

/-! Trees as lists of nodes. The walk with pending cursors visits the nodes in the order of `preorder`,
and what is gathered from a list of siblings splits where the list does. -/

namespace TimeLint

namespace Node

theorem sizeOf_lt_of_mem_children {n c : Node} (h : c ∈ n.children) : sizeOf c < sizeOf n := by
  cases n with
  | mk kind extent named missing broken field children =>
    have := List.sizeOf_lt_of_mem h
    simp only [Node.mk.sizeOf_spec] at this ⊢
    omega

/-- What holds of a node as soon as it holds of its children holds of every node. -/
theorem induct {motive : Node → Prop} (step : ∀ n, (∀ c ∈ n.children, motive c) → motive n) (n : Node) : motive n :=
  step n fun c _ => induct step c
termination_by sizeOf n
decreasing_by exact sizeOf_lt_of_mem_children ‹_›

mutual

/-- The node and all below it. -/
def nodes : Node → List Node
  | ⟨kind, extent, named, missing, broken, field, cs⟩ =>
    ⟨kind, extent, named, missing, broken, field, cs⟩ :: nodesOf cs

def nodesOf : List Node → List Node
  | [] => []
  | n :: ns => nodes n ++ nodesOf ns

end

theorem nodes_eq (n : Node) : n.nodes = n :: nodesOf n.children := by
  cases n; rfl

theorem mem_nodesOf {m : Node} {cs : List Node} : m ∈ nodesOf cs ↔ ∃ c ∈ cs, m ∈ c.nodes := by
  induction cs with
  | nil => simp [nodesOf]
  | cons c cs ih => simp [nodesOf, ih]

theorem mem_nodes {m n : Node} : m ∈ n.nodes ↔ m = n ∨ ∃ c ∈ n.children, m ∈ c.nodes := by
  rw [nodes_eq, List.mem_cons, mem_nodesOf]

theorem self_mem_nodes (n : Node) : n ∈ n.nodes := mem_nodes.2 (Or.inl rfl)

theorem mem_nodes_of_child {m c n : Node} (hc : c ∈ n.children) (hm : m ∈ c.nodes) : m ∈ n.nodes :=
  mem_nodes.2 (Or.inr ⟨c, hc, hm⟩)

theorem mem_nodes_trans {m c n : Node} (hc : c ∈ n.nodes) (hm : m ∈ c.nodes) : m ∈ n.nodes := by
  induction n using Node.induct with
  | step n ih =>
    rcases mem_nodes.1 hc with rfl | ⟨b, hb, hc⟩
    · exact hm
    · exact mem_nodes_of_child hb (ih b hb hc)

/-- The child at the index of a field is the child in that field. -/
theorem child?_eq_getElem? (name : String) (n : Node) :
    n.child? name = (n.childIndex? name).bind fun i => n.children[i]? := by
  unfold child? childIndex?
  induction n.children with
  | nil => rfl
  | cons c cs ih =>
    rw [List.find?_cons, List.findIdx?_cons]
    cases hasField name c with
    | true => rfl
    | false =>
      rw [ih]
      cases cs.findIdx? (hasField name) <;> rfl

/-- The child that a field's index points at carries the field, and no child before it does. -/
theorem childIndex?_eq_some_iff {name : String} {n : Node} {i : Nat} :
    n.childIndex? name = some i ↔
      ∃ c, n.children[i]? = some c ∧ c.hasField name = true ∧
        ∀ j < i, ∀ b, n.children[j]? = some b → b.hasField name = false := by
  unfold childIndex?
  rw [List.findIdx?_eq_some_iff_getElem]
  constructor
  · rintro ⟨hi, hc, hb⟩
    refine ⟨n.children[i], List.getElem?_eq_getElem hi, hc, fun j hj b hjb => ?_⟩
    obtain ⟨hj', rfl⟩ := List.getElem?_eq_some_iff.1 hjb
    simpa using hb j hj
  · rintro ⟨c, hc, hf, hb⟩
    obtain ⟨hi, rfl⟩ := List.getElem?_eq_some_iff.1 hc
    refine ⟨hi, hf, fun j hj => ?_⟩
    have := hb j hj n.children[j] (List.getElem?_eq_getElem (by omega))
    simp [this]

theorem child?_eq_some {name : String} {n c : Node} (h : n.child? name = some c) :
    ∃ i, n.childIndex? name = some i ∧ n.children[i]? = some c := by
  rw [child?_eq_getElem?] at h
  exact Option.bind_eq_some_iff.1 h

theorem child?_of_childIndex? {name : String} {n c : Node} {i : Nat} (hi : n.childIndex? name = some i)
    (hc : n.children[i]? = some c) : n.child? name = some c := by
  rw [child?_eq_getElem?, hi]
  exact hc

end Node

namespace Cursor

theorem preorder_eq (above : List (Node × Nat)) (n : Node) :
    preorder above n = ⟨n, above⟩ :: preorders n above 0 n.children := by
  cases n; rfl

theorem preorders_append (p : Node) (above : List (Node × Nat)) (i : Nat) (xs ys : List Node) :
    preorders p above i (xs ++ ys) = preorders p above i xs ++ preorders p above (i + xs.length) ys := by
  induction xs generalizing i with
  | nil => rfl
  | cons x xs ih =>
    simp only [List.cons_append, preorders, List.length_cons, ih (i + 1), List.append_assoc]
    rw [show i + 1 + xs.length = i + (xs.length + 1) by omega]

/-- The subtree at a cursor. -/
def subtree (c : Cursor) : List Cursor := preorder c.above c.node

theorem preorders_eq_flatMap (p : Node) (above : List (Node × Nat)) (i : Nat) (ns : List Node) :
    preorders p above i ns = (siblings p above i ns).flatMap subtree := by
  induction ns generalizing i with
  | nil => rfl
  | cons n ns ih => rw [preorders, siblings, List.flatMap_cons, ih]; rfl

theorem subtree_eq (c : Cursor) : c.subtree = c :: c.children.flatMap subtree := by
  rw [subtree, preorder_eq, preorders_eq_flatMap]
  rfl

/-- What a visit with these pending cursors still has to come to. -/
def due (pending : Array Cursor) : List Cursor := pending.toList.reverse.flatMap subtree

/-- A turn visits the first cursor that is due and leaves the others due, in the same order. -/
theorem due_turn {pending rest : Array Cursor} {c : Cursor} (h : turn? pending = some (c, rest)) :
    due pending = c :: due rest := by
  obtain ⟨others, rfl, hrest⟩ := turn?_eq_some h
  rw [due, Array.toList_push, List.reverse_concat, List.flatMap_cons, subtree_eq, due, hrest, List.reverse_append,
    List.reverse_reverse, List.flatMap_append, List.cons_append]

theorem turn?_eq_none_iff {pending : Array Cursor} : turn? pending = none ↔ pending = #[] := by
  rw [turn?, Option.map_eq_none_iff, Array.back?_eq_none_iff]

theorem walk_eq_due (pending : Array Cursor) : walk pending = due pending := by
  fun_induction walk pending with
  | case1 pending h =>
    rw [turn?_eq_none_iff] at h
    rw [h]
    rfl
  | case2 pending c rest h ih => rw [ih, due_turn h]

theorem walk_singleton (c : Cursor) : walk #[c] = c.subtree := by
  simp [walk_eq_due, due]

theorem walk_node (above : List (Node × Nat)) (n : Node) : walk #[⟨n, above⟩] = preorder above n :=
  walk_singleton ⟨n, above⟩

mutual

/-- The places that `preorder` visits hold the nodes of the tree, in order. -/
theorem map_node_preorder (above : List (Node × Nat)) : (n : Node) → (preorder above n).map (·.node) = n.nodes
  | ⟨kind, extent, named, missing, broken, field, cs⟩ => by
    rw [preorder_eq, List.map_cons, map_node_preorders _ above 0 cs, Node.nodes_eq]

theorem map_node_preorders (p : Node) (above : List (Node × Nat)) (i : Nat) :
    (ns : List Node) → (preorders p above i ns).map (·.node) = Node.nodesOf ns
  | [] => rfl
  | n :: ns => by
    rw [preorders, List.map_append, map_node_preorder ((p, i) :: above) n, map_node_preorders p above (i + 1) ns,
      Node.nodesOf]

end

theorem node_mem_nodes {above : List (Node × Nat)} {n : Node} {c : Cursor} (h : c ∈ preorder above n) :
    c.node ∈ n.nodes := by
  rw [← map_node_preorder above n]
  exact List.mem_map_of_mem h

section

variable {β : Type} (f : Cursor → Option β)

/-- What `f` finds in a tree, in pre-order. -/
def gather (above : List (Node × Nat)) (n : Node) : List β := (preorder above n).filterMap f

/-- What `f` finds in a list of siblings, the first of which is child number `i` of `p`. -/
def gathers (p : Node) (above : List (Node × Nat)) (i : Nat) (ns : List Node) : List β :=
  (preorders p above i ns).filterMap f

theorem gather_eq (above : List (Node × Nat)) (n : Node) :
    gather f above n = (f ⟨n, above⟩).toList ++ gathers f n above 0 n.children := by
  unfold gather gathers
  rw [preorder_eq, List.filterMap_cons]
  cases f ⟨n, above⟩ <;> rfl

theorem gathers_nil (p : Node) (above : List (Node × Nat)) (i : Nat) : gathers f p above i [] = [] := rfl

theorem gathers_append (p : Node) (above : List (Node × Nat)) (i : Nat) (xs ys : List Node) :
    gathers f p above i (xs ++ ys) = gathers f p above i xs ++ gathers f p above (i + xs.length) ys := by
  simp only [gathers, preorders_append, List.filterMap_append]

theorem gathers_cons (p : Node) (above : List (Node × Nat)) (i : Nat) (n : Node) (ns : List Node) :
    gathers f p above i (n :: ns) = gather f ((p, i) :: above) n ++ gathers f p above (i + 1) ns := by
  simp only [gathers, gather, preorders, List.filterMap_append]

theorem gather_leaf {above : List (Node × Nat)} {n : Node} (h : n.children = []) :
    gather f above n = (f ⟨n, above⟩).toList := by
  rw [gather_eq, h, gathers_nil, List.append_nil]

end

end Cursor

end TimeLint
