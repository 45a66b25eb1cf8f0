import Mathlib.Data.List.Flatten
import Mathlib.Logic.Relation
import TimeLint.Proofs.Visits

/-! The visit with a stack. A turn takes the last cursor off the stack and puts its children there in reverse, so
after a turn the same cursors are due as before it, less the first. A visit that starts with one cursor therefore
ends after as many turns as there are nodes below it and comes to them in the order of `preorder`: to each once, to a
node before its descendants, and to all below a child before anything below the next. -/

namespace TimeLint.Cursor

open scoped List
open Relation (ReflTransGen TransGen)

variable {a b c d x y : Cursor} {pending : Array Cursor} {k : Nat}

/-- What is visited in `k` turns, and what is pending after them. -/
def turns : Nat → Array Cursor → List Cursor × Array Cursor
  | 0, pending => ([], pending)
  | k + 1, pending =>
    match turn? pending with
    | none => ([], pending)
    | some (c, rest) => (c :: (turns k rest).1, (turns k rest).2)

/-- So many turns visit so many of the cursors that are due and leave the others due. -/
theorem turns_due (k : Nat) (pending : Array Cursor) :
    (turns k pending).1 = (due pending).take k ∧ due (turns k pending).2 = (due pending).drop k := by
  induction k generalizing pending with
  | zero => exact ⟨rfl, rfl⟩
  | succ k ih =>
    rw [turns]
    cases h : turn? pending with
    | none =>
      obtain rfl := turn?_eq_none_iff.1 h
      exact ⟨rfl, rfl⟩
    | some r =>
      obtain ⟨c, rest⟩ := r
      obtain ⟨hvisited, hleft⟩ := ih rest
      rw [due_turn h]
      exact ⟨congrArg (c :: ·) hvisited, hleft⟩

theorem due_eq_nil_iff : due pending = [] ↔ pending = #[] := by
  constructor
  · intro h
    cases ht : turn? pending with
    | none => exact turn?_eq_none_iff.1 ht
    | some r =>
      rw [due_turn ht] at h
      cases h
  · rintro rfl
    rfl

mutual

theorem length_preorder (above : List (Node × Nat)) : (n : Node) → (preorder above n).length = n.size
  | ⟨kind, extent, named, missing, broken, field, cs⟩ => by
    rw [preorder_eq, List.length_cons, length_preorders _ above 0 cs, Node.size_eq]

theorem length_preorders (p : Node) (above : List (Node × Nat)) (i : Nat) :
    (ns : List Node) → (preorders p above i ns).length = Node.sizes ns
  | [] => rfl
  | n :: ns => by
    rw [preorders, List.length_append, length_preorder ((p, i) :: above) n, length_preorders p above (i + 1) ns, Node.sizes]

end

/-- The stack is empty as soon as there were as many turns as there are nodes, and not before. -/
theorem turns_end_iff : (turns k #[c]).2 = #[] ↔ c.node.size ≤ k := by
  rw [← due_eq_nil_iff, (turns_due k #[c]).2, List.drop_eq_nil_iff, ← walk_eq_due, walk_singleton, subtree, length_preorder]

/-- The second cursor is on a child of the first one's node. -/
def Child (a b : Cursor) : Prop := b ∈ a.children

theorem node_mem_of_siblings {p : Node} {above : List (Node × Nat)} {i : Nat} {ns : List Node}
    (h : c ∈ siblings p above i ns) : c.node ∈ ns := by
  induction ns generalizing i with
  | nil => simp [siblings] at h
  | cons n ns ih =>
    rcases List.mem_cons.1 h with rfl | h
    · exact List.mem_cons_self
    · exact List.mem_cons_of_mem n (ih h)

/-- What holds of a cursor as soon as it holds of its children holds of every cursor. -/
theorem induct {motive : Cursor → Prop} (step : ∀ c, (∀ x, Child c x → motive x) → motive c) (c : Cursor) : motive c := by
  obtain ⟨n, above⟩ := c
  induction n using Node.induct generalizing above with
  | step n ih => exact step _ fun x hx => ih x.node (node_mem_of_siblings hx) x.above

theorem mem_subtree : d ∈ c.subtree ↔ d = c ∨ ∃ x, Child c x ∧ d ∈ x.subtree := by
  rw [subtree_eq, List.mem_cons, List.mem_flatMap]
  rfl

/-- A subtree holds what can be reached from its top by going from parent to child. -/
theorem mem_subtree_iff : d ∈ c.subtree ↔ ReflTransGen Child c d := by
  constructor
  · intro h
    induction c using Cursor.induct with
    | step c ih =>
      rcases mem_subtree.1 h with rfl | ⟨x, hx, hd⟩
      · exact .refl
      · exact (ih x hx hd).head hx
  · intro h
    induction h using ReflTransGen.head_induction_on with
    | refl => exact mem_subtree.2 (Or.inl rfl)
    | head hx _ ih => exact mem_subtree.2 (Or.inr ⟨_, hx, ih⟩)

/-- The visit of a subtree is one stretch of every visit that comes to its top. -/
theorem subtree_stretch (h : a ∈ c.subtree) : a.subtree <:+: c.subtree := by
  induction c using Cursor.induct with
  | step c ih =>
    rcases mem_subtree.1 h with rfl | ⟨x, hx, ha⟩
    · exact List.infix_refl _
    · have hchild : x.subtree <:+: c.children.flatMap subtree :=
        List.flatMap_def ▸ List.infix_of_mem_flatten (List.mem_map_of_mem hx)
      rw [subtree_eq c]
      exact (ih x hx ha).trans (List.infix_cons hchild)

theorem descendant_behind (h : TransGen Child a b) : [a, b] <+ a.subtree := by
  obtain ⟨x, hx, hb⟩ := TransGen.head'_iff.1 h
  rw [subtree_eq, List.cons_sublist_cons, List.singleton_sublist, List.mem_flatMap]
  exact ⟨x, hx, mem_subtree_iff.2 hb⟩

theorem siblings_in_order (h : [x, y] <+ a.children) : x.subtree ++ y.subtree <+ a.subtree := by
  have hpair : [x, y].flatMap subtree = x.subtree ++ y.subtree := by simp
  rw [subtree_eq a, ← hpair]
  exact (h.flatMap subtree).cons a

/-- From any cursor the visit with a stack is the recursive one. It comes to the first `k` nodes in `k` turns, and the
stack is empty after as many turns as there are nodes, not before. Each place below the start is visited once, a node
before its descendants, and all below a child before anything below a later child. -/
theorem walk_in_tree_order (c : Cursor) :
    (∀ k, (turns k #[c]).1 = (preorder c.above c.node).take k ∧ ((turns k #[c]).2 = #[] ↔ c.node.size ≤ k)) ∧
    walk #[c] = preorder c.above c.node ∧
    (walk #[c] = c :: c.children.flatMap fun x => walk #[x]) ∧
    (walk #[c]).Nodup ∧ (∀ d, d ∈ walk #[c] ↔ ReflTransGen Child c d) ∧
    (∀ a ∈ walk #[c], ∀ b, TransGen Child a b → [a, b] <+ walk #[c]) ∧
    ∀ a ∈ walk #[c], ∀ x y, [x, y] <+ a.children → walk #[x] ++ walk #[y] <+ walk #[c] := by
  have hdue : due #[c] = preorder c.above c.node := by rw [← walk_eq_due, walk_singleton, subtree]
  simp only [walk_singleton]
  refine ⟨fun k => ⟨?_, turns_end_iff⟩, rfl, subtree_eq c, nodup_preorder c.above c.node, fun d => mem_subtree_iff,
    fun a ha b hb => ?_, fun a ha x y hxy => ?_⟩
  · rw [(turns_due k #[c]).1, hdue]
  · exact (descendant_behind hb).trans (subtree_stretch ha).sublist
  · exact (siblings_in_order hxy).trans (subtree_stretch ha).sublist

end TimeLint.Cursor
