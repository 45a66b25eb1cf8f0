import TimeLint.Proofs.CorrectedTree

/-! The nodes that corrections leave in a tree. Such a node is no receiver of a corrected call, its ends lie
inside no edit, and a stretch of the source that it covers without edits is found again at its new place. -/

namespace TimeLint

/-- No two children carry the same field. -/
def Node.FieldsDistinct (n : Node) : Prop := (n.children.filterMap (·.field)).Nodup

instance (n : Node) : Decidable n.FieldsDistinct := inferInstanceAs (Decidable (List.Nodup _))

theorem Node.FieldsDistinct.index_eq {n a b : Node} {i j : Nat} {name : String} (h : n.FieldsDistinct)
    (hi : n.children[i]? = some a) (hj : n.children[j]? = some b) (ha : a.hasField name = true)
    (hb : b.hasField name = true) : i = j := by
  have hne : ∀ {i j : Nat} {a b : Node}, n.children[i]? = some a → n.children[j]? = some b → a.hasField name = true →
      b.hasField name = true → ¬ i < j := by
    intro i j a b hi hj ha hb hlt
    obtain ⟨hi', rfl⟩ := List.getElem?_eq_some_iff.1 hi
    obtain ⟨hj', rfl⟩ := List.getElem?_eq_some_iff.1 hj
    have hpair := List.pairwise_iff_getElem.1 (List.pairwise_filterMap.1 h) i j hi' hj' hlt
    exact hpair name (by simpa [Node.hasField] using ha) name (by simpa [Node.hasField] using hb) rfl
  have h1 := hne hi hj ha hb
  have h2 := hne hj hi hb ha
  omega

namespace Offense

open Cursor

variable {source : Bytes} {tree : Node} {size : Nat}

/-- Child number `i` is not among those that a correction of the call replaces. -/
def Kept (source : Bytes) (p : Cursor) (i : Nat) : Prop := ∀ r ∈ rewriting? source p, i < r.first ∨ r.last < i

theorem kept_of_plain {p : Cursor} (h : correction? source p = none) (i : Nat) : Kept source p i := by
  simp [Kept, rewriting?, h]

theorem Cut.kept_iff {p receiver selector : Node} {above : List (Node × Nat)} {e : Edit} {i k j : Nat}
    (c : Cut source p e i k receiver selector) (h : correction? source ⟨p, above⟩ = some e) :
    Kept source ⟨p, above⟩ j ↔ j < i ∨ k < j := by
  simp [Kept, c.rewriting?_eq h]

theorem Kept.not_carried {p : Node} {above : List (Node × Nat)} {i : Nat} (hp : p.Arranged)
    (h : Kept source ⟨p, above⟩ i) : carried? source ((p, i) :: above) = none := by
  cases hcor : correction? source ⟨p, above⟩ with
  | none => simp [carried?, hcor]
  | some e =>
    obtain ⟨first, last, receiver, selector, hcut⟩ := cut_of_correction? hp hcor
    have hbefore := hcut.before
    have hi := (hcut.kept_iff hcor).1 h
    exact hcut.carried?_other (by omega)

/-- The node at `above` is still there in the corrected tree, be it as the token that it became. -/
inductive Survives (source : Bytes) (tree : Node) : List (Node × Nat) → Node → Prop
  | root : Survives source tree [] tree
  | child {p n : Node} {i : Nat} {above : List (Node × Nat)} (parent : Survives source tree above p)
      (place : p.children[i]? = some n) (kept : Kept source ⟨p, above⟩ i) : Survives source tree ((p, i) :: above) n

section

variable {n : Node} {above : List (Node × Nat)}

theorem Survives.nodes (h : Survives source tree above n) : ∀ m ∈ n.nodes, m ∈ tree.nodes := by
  induction h with
  | root => exact fun m hm => hm
  | child _ hc _ ih => exact fun m hm => ih m (Node.mem_nodes_of_child (List.mem_of_getElem? hc) hm)

theorem Survives.grammatical (h : Survives source tree above n) (hg : tree.Grammatical size) : n.Grammatical size :=
  fun m hm => hg m (h.nodes m hm)

theorem Survives.cursors (h : Survives source tree above n) : ∀ c ∈ preorder above n, c ∈ preorder [] tree := by
  induction h with
  | root => exact fun c hc => hc
  | @child p n i above _ hc _ ih =>
    intro c hmem
    refine ih c ?_
    rw [preorder_eq, split_at hc, preorders_append]
    rw [length_take_of_getElem? hc, Nat.zero_add, preorders]
    simp [hmem]

theorem Survives.attached (h : Survives source tree above n) : Attached ⟨n, above⟩ := by
  cases h with
  | root => exact attached_root _
  | child _ hc _ => exact attached_child hc

theorem Survives.not_carried (h : Survives source tree above n) (hg : tree.Grammatical size) :
    carried? source above = none := by
  cases h with
  | root => rfl
  | child hp _ hk => exact hk.not_carried (hp.grammatical hg).arranged

theorem Survives.editAt_eq (h : Survives source tree above n) (hg : tree.Grammatical size) :
    editAt source ⟨n, above⟩ = none := by
  cases h with
  | root => exact editAt_root _
  | child hp hc hk =>
    exact editAt_child hp.attached hc (hp.not_carried hg) (hk.not_carried (hp.grammatical hg).arranged)

theorem Survives.chain (h : Survives source tree above n) (hg : tree.Grammatical size) :
    Edit.Chain n.start n.stop (gather (editAt source) above n) :=
  chain_gather (h.grammatical hg) h.attached (h.editAt_eq hg) (h.not_carried hg)

end

/-- The edits of siblings, cut around those of one of them. -/
theorem gathers_around {p c : Node} {above : List (Node × Nat)} {i j : Nat} {lo hi : Int} {ns : List Node}
    (hrow : Node.Row lo hi ns)
    (h : ∀ j n, ns[j]? = some n → Edit.Chain n.start n.stop (gather (editAt source) ((p, i + j) :: above) n))
    (hc : ns[j]? = some c) :
    ∃ L M, gathers (editAt source) p above i ns = L ++ (gather (editAt source) ((p, i + j) :: above) c ++ M) ∧
      Edit.Chain lo c.start L ∧ Edit.Chain c.stop hi M := by
  rw [split_at hc] at hrow
  obtain ⟨hfront, -, hback⟩ := hrow.split
  refine ⟨gathers (editAt source) p above i (ns.take j), gathers (editAt source) p above (i + j + 1) (ns.drop (j + 1)),
    ?_, chain_gathers hfront fun k n hk => ?_, chain_gathers hback fun k n hk => ?_⟩
  · conv_lhs => rw [split_at hc]
    rw [gathers_append, gathers_cons, length_take_of_getElem? hc]
  · exact h k n (getElem?_take_eq_some hk).2
  · rw [List.getElem?_drop] at hk
    rw [show i + j + 1 + k = i + (j + 1 + k) by omega]
    exact h (j + 1 + k) n hk

/-- The edits of a node, cut around those of a child that its correction keeps. -/
theorem Survives.around_child {p c : Node} {above : List (Node × Nat)} {i : Nat} (hp : Survives source tree above p)
    (hg : tree.Grammatical size) (hc : p.children[i]? = some c) (hk : Kept source ⟨p, above⟩ i) :
    ∃ L M, gather (editAt source) above p = L ++ (gather (editAt source) ((p, i) :: above) c ++ M) ∧
      Edit.Chain p.start c.start L ∧ Edit.Chain c.stop p.stop M := by
  have hpg := hp.grammatical hg
  have hchild : ∀ j n, p.children[j]? = some n → Kept source ⟨p, above⟩ j →
      Edit.Chain n.start n.stop (gather (editAt source) ((p, j) :: above) n) :=
    fun j n hj hkept => (Survives.child hp hj hkept).chain hg
  rw [gather_eq, hp.editAt_eq hg, Option.toList_none, List.nil_append]
  cases hcor : correction? source ⟨p, above⟩ with
  | none =>
    obtain ⟨L, M, heq, hL, hM⟩ := gathers_around (i := 0) hpg.row
      (fun j n hj => by rw [Nat.zero_add]; exact hchild j n hj (kept_of_plain hcor j)) hc
    rw [Nat.zero_add] at heq
    exact ⟨L, M, heq, hL, hM⟩
  | some e =>
    obtain ⟨first, last, receiver, selector, hcut⟩ := cut_of_correction? hpg.arranged hcor
    obtain ⟨hfront, hlt, hback⟩ := hcut.rows hpg
    obtain ⟨x, hx, hedits⟩ := hcut.gathers_eq atTargets_editAt hpg hcor
    have hkept : ∀ j, j < first ∨ last < j → Kept source ⟨p, above⟩ j := fun j => (hcut.kept_iff hcor).2
    have hfront' : ∀ j n, (p.children.take first)[j]? = some n →
        Edit.Chain n.start n.stop (gather (editAt source) ((p, 0 + j) :: above) n) := by
      intro j n hj
      obtain ⟨hlt, hj⟩ := getElem?_take_eq_some hj
      rw [Nat.zero_add]
      exact hchild j n hj (hkept j (Or.inl hlt))
    have hback' : ∀ j n, (p.children.drop (last + 1))[j]? = some n →
        Edit.Chain n.start n.stop (gather (editAt source) ((p, last + 1 + j) :: above) n) := by
      intro j n hj
      rw [List.getElem?_drop] at hj
      exact hchild _ n hj (hkept _ (by omega))
    rw [hedits, hx, Option.toList_some, List.singleton_append]
    rcases (hcut.kept_iff hcor).1 hk with hi | hi
    · obtain ⟨L, M, heq, hL, hM⟩ := gathers_around hfront hfront' (j := i) (by rwa [List.getElem?_take_of_lt hi])
      rw [Nat.zero_add] at heq
      rw [heq]
      refine ⟨L, M ++ e :: gathers (editAt source) p above (last + 1) (p.children.drop (last + 1)), ?_, hL,
        hM.append ⟨Int.le_refl _, hlt, chain_gathers hback hback'⟩⟩
      simp only [List.append_assoc]
    · obtain ⟨j, rfl⟩ := Nat.exists_eq_add_of_lt hi
      have hj : (p.children.drop (last + 1))[j]? = some c := by
        rw [List.getElem?_drop, show last + 1 + j = last + j + 1 by omega]
        exact hc
      obtain ⟨L, M, heq, hL, hM⟩ := gathers_around hback hback' hj
      rw [show last + 1 + j = last + j + 1 by omega] at heq
      rw [heq]
      refine ⟨gathers (editAt source) p above 0 (p.children.take first) ++ e :: L, M, ?_,
        (chain_gathers hfront hfront').append ⟨Int.le_refl _, hlt, hL⟩, hM⟩
      simp only [List.append_assoc, List.cons_append]

/-- The edits of a tree, cut around those of a node that survives. -/
theorem Survives.around {n : Node} {above : List (Node × Nat)} (h : Survives source tree above n)
    (hg : tree.Grammatical source.length) :
    ∃ L M, (checkTree source tree).edits = L ++ (gather (editAt source) above n ++ M) ∧ Edit.Chain 0 n.start L ∧
      Edit.Chain n.stop source.length M := by
  induction h with
  | root =>
    refine ⟨[], [], ?_, hg.nested.nonneg, hg.nested.bounded⟩
    rw [checkTree_edits, List.append_nil, List.nil_append]
  | child hp hc hk ih =>
    obtain ⟨L, M, hedits, hL, hM⟩ := ih
    obtain ⟨A, B, hchild, hA, hB⟩ := hp.around_child hg hc hk
    refine ⟨L ++ A, B ++ M, ?_, hL.append hA, hB.append hM⟩
    rw [hedits, hchild]
    simp only [List.append_assoc]

theorem Survives.edit_mem {n : Node} {above : List (Node × Nat)} {e : Edit} (h : Survives source tree above n)
    (hg : tree.Grammatical source.length) (hcor : correction? source ⟨n, above⟩ = some e) :
    e ∈ (checkTree source tree).edits := by
  obtain ⟨L, M, hedits, -, -⟩ := h.around hg
  obtain ⟨i, k, receiver, selector, hcut⟩ := cut_of_correction? (h.grammatical hg).arranged hcor
  obtain ⟨x, hx, hgathers⟩ := hcut.gathers_eq atTargets_editAt (h.grammatical hg) hcor
  rw [hedits, gather_eq, hgathers, hx]
  simp

end Offense

end TimeLint
