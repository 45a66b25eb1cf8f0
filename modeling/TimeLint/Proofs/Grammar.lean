import Mathlib.Data.List.Chain
import TimeLint.Proofs.Tree

/-! Trees as a grammar yields them. Extents are nested and siblings stand in order; in a call the receiver
comes before the selector with no constant between them; `::Name` holds no constant but its name; a
constant and the name of a method are leaves. -/

namespace TimeLint.Node

/-- The node is a constant or has one below it. -/
def HoldsConstant (n : Node) : Prop := ∃ m ∈ n.nodes, m.kind = "constant"

instance (n : Node) : Decidable n.HoldsConstant := inferInstanceAs (Decidable (∃ m ∈ n.nodes, _))

/-- The extent lies in a source of `size` bytes, and those of the children lie in it, in order. -/
structure Nested (size : Nat) (n : Node) : Prop where
  nonneg : 0 ≤ n.start
  forward : n.start ≤ n.stop
  bounded : n.stop ≤ size
  inside : ∀ c ∈ n.children, n.start ≤ c.start ∧ c.stop ≤ n.stop
  ordered : n.children.IsChain fun a b => a.stop ≤ b.start

/-- What the fields of calls and scope resolutions say about the children, and which nodes are leaves. -/
structure Arranged (n : Node) : Prop where
  receiverFirst : n.kind = "call" →
    ∀ a ∈ n.childIndex? "receiver", ∀ b ∈ n.childIndex? "method", a < b
  bareBetween : n.kind = "call" →
    ∀ a ∈ n.childIndex? "receiver", ∀ b ∈ n.childIndex? "method",
      ∀ c ∈ (n.children.take b).drop (a + 1), ¬ c.HoldsConstant
  nameAlone : n.kind = "scope_resolution" → n.child? "scope" = none →
    ∀ x ∈ n.children.zipIdx, n.childIndex? "name" ≠ some x.2 → ¬ x.1.HoldsConstant
  constantLeaf : n.kind = "constant" → n.children = []
  selectorLeaf : n.kind = "call" →
    ∀ m ∈ n.child? "method", m.kind ≠ "argument_list" → m.children = []

/-- All extents of the tree lie in a source of `size` bytes, nested and in order. -/
def Spanned (size : Nat) (t : Node) : Prop := ∀ n ∈ t.nodes, n.Nested size

/-- The tree may stand for a source of `size` bytes. -/
def Grammatical (size : Nat) (t : Node) : Prop := ∀ n ∈ t.nodes, n.Nested size ∧ n.Arranged

instance (size : Nat) (n : Node) : Decidable (n.Nested size) :=
  decidable_of_iff (0 ≤ n.start ∧ n.start ≤ n.stop ∧ n.stop ≤ size ∧
      (∀ c ∈ n.children, n.start ≤ c.start ∧ c.stop ≤ n.stop) ∧ n.children.IsChain fun a b => a.stop ≤ b.start)
    ⟨fun ⟨h1, h2, h3, h4, h5⟩ => ⟨h1, h2, h3, h4, h5⟩, fun ⟨h1, h2, h3, h4, h5⟩ => ⟨h1, h2, h3, h4, h5⟩⟩

instance (name : String) (n : Node) : Decidable (n.child? name = none) :=
  decidable_of_iff ((n.child? name).isNone = true) Option.isNone_iff_eq_none

instance (n : Node) : Decidable n.Arranged :=
  decidable_of_iff
    ((n.kind = "call" → ∀ a ∈ n.childIndex? "receiver", ∀ b ∈ n.childIndex? "method", a < b) ∧
      (n.kind = "call" → ∀ a ∈ n.childIndex? "receiver", ∀ b ∈ n.childIndex? "method",
        ∀ c ∈ (n.children.take b).drop (a + 1), ¬ c.HoldsConstant) ∧
      (n.kind = "scope_resolution" → n.child? "scope" = none →
        ∀ x ∈ n.children.zipIdx, n.childIndex? "name" ≠ some x.2 → ¬ x.1.HoldsConstant) ∧
      (n.kind = "constant" → n.children = []) ∧
      (n.kind = "call" → ∀ m ∈ n.child? "method", m.kind ≠ "argument_list" → m.children = []))
    ⟨fun ⟨h1, h2, h3, h4, h5⟩ => ⟨h1, h2, h3, h4, h5⟩, fun ⟨h1, h2, h3, h4, h5⟩ => ⟨h1, h2, h3, h4, h5⟩⟩

instance (size : Nat) (t : Node) : Decidable (t.Spanned size) :=
  inferInstanceAs (Decidable (∀ n ∈ t.nodes, n.Nested size))

instance (size : Nat) (t : Node) : Decidable (t.Grammatical size) :=
  inferInstanceAs (Decidable (∀ n ∈ t.nodes, n.Nested size ∧ n.Arranged))

section

variable {size : Nat} {n c : Node}

theorem Spanned.nested (h : n.Spanned size) : n.Nested size := h n (self_mem_nodes n)

theorem Spanned.child (h : n.Spanned size) (hc : c ∈ n.children) : c.Spanned size :=
  fun m hm => h m (mem_nodes_of_child hc hm)

theorem Grammatical.spanned (h : n.Grammatical size) : n.Spanned size := fun m hm => (h m hm).1

theorem Grammatical.nested (h : n.Grammatical size) : n.Nested size := (h n (self_mem_nodes n)).1

theorem Grammatical.arranged (h : n.Grammatical size) : n.Arranged := (h n (self_mem_nodes n)).2

theorem Grammatical.child (h : n.Grammatical size) (hc : c ∈ n.children) : c.Grammatical size :=
  fun m hm => h m (mem_nodes_of_child hc hm)

end

/-- The nodes stand in order between `lo` and `hi`. -/
def Row : Int → Int → List Node → Prop
  | lo, hi, [] => lo ≤ hi
  | lo, hi, n :: ns => lo ≤ n.start ∧ n.start ≤ n.stop ∧ Row n.stop hi ns

theorem Row.le {lo hi : Int} {ns : List Node} (h : Row lo hi ns) : lo ≤ hi := by
  induction ns generalizing lo with
  | nil => exact h
  | cons n ns ih =>
    obtain ⟨h1, h2, h3⟩ := h
    have := ih h3
    omega

/-- A row splits at each of its nodes. -/
theorem Row.split {lo hi : Int} {xs ys : List Node} {n : Node} (h : Row lo hi (xs ++ n :: ys)) :
    Row lo n.start xs ∧ n.start ≤ n.stop ∧ Row n.stop hi ys := by
  induction xs generalizing lo with
  | nil => exact ⟨h.1, h.2⟩
  | cons x xs ih =>
    obtain ⟨h1, h2, h3⟩ := h
    obtain ⟨h4, h5⟩ := ih h3
    exact ⟨⟨h1, h2, h4⟩, h5⟩

-- only the first node needs the bound `lo`: the order carries it on to the others
theorem row_of_ordered {lo hi : Int} {ns : List Node} (hle : lo ≤ hi) (hlo : ∀ n ∈ ns.head?, lo ≤ n.start)
    (hn : ∀ n ∈ ns, n.start ≤ n.stop ∧ n.stop ≤ hi) (ho : ns.IsChain fun a b => a.stop ≤ b.start) :
    Row lo hi ns := by
  induction ns generalizing lo with
  | nil => exact hle
  | cons n ns ih =>
    obtain ⟨h1, h2⟩ := hn n (by simp)
    refine ⟨hlo n (by simp), h1, ih h2 ?_ (fun m hm => hn m (by simp [hm])) ho.tail⟩
    intro m hm
    cases ns with
    | nil => simp at hm
    | cons a ns =>
      obtain rfl : a = m := by simpa using hm
      exact ho.rel

theorem Spanned.row {size : Nat} {n : Node} (h : n.Spanned size) : Row n.start n.stop n.children := by
  refine row_of_ordered h.nested.forward ?_ ?_ h.nested.ordered
  · intro c hc
    exact (h.nested.inside c (List.mem_of_head? hc)).1
  · intro c hc
    exact ⟨(h.child hc).nested.forward, (h.nested.inside c hc).2⟩

theorem Grammatical.row {size : Nat} {n : Node} (h : n.Grammatical size) : Row n.start n.stop n.children := h.spanned.row

end TimeLint.Node
