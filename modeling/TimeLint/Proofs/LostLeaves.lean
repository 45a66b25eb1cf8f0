import TimeLint.Proofs.Tangles
import TimeLint.Proofs.Verdicts

/-! What an edit removes from the source. An edit replaces one range, from the start of the receiver to the end of the
selector, and with them whatever the tree has between the two: the operator, and also a comment or the body of a
heredoc. Nothing else is touched, and no leaf is cut. -/

namespace TimeLint

/-- In each call of the tree the receiver stands before the selector. -/
def Node.ReceiversFirst (t : Node) : Prop :=
  ∀ n ∈ t.nodes, n.kind = "call" → ∀ i ∈ n.childIndex? "receiver", ∀ j ∈ n.childIndex? "method", i < j

instance (t : Node) : Decidable t.ReceiversFirst :=
  inferInstanceAs (Decidable (∀ n ∈ t.nodes, n.kind = "call" → ∀ i ∈ n.childIndex? "receiver", ∀ j ∈ n.childIndex? "method",
    i < j))

/-- Some byte of the node is in the range that the edit replaces. -/
def Edit.Meets (e : Edit) (n : Node) : Prop := n.start < e.stop ∧ e.start < n.stop

namespace Offense

open Cursor

variable {source : Bytes} {tree : Node} {k c : Cursor} {e : Edit}

/-- A leaf of the tree that covers bytes of the source. -/
structure Leaf (tree : Node) (c : Cursor) : Prop where
  visited : c ∈ preorder [] tree
  childless : c.node.children = []
  covers : c.node.start < c.node.stop

/-- The cursor stands at child number `j`, or below it. -/
def InChild (k : Cursor) (j : Nat) (c : Cursor) : Prop :=
  ∃ m, k.node.children[j]? = some m ∧ c ∈ preorder ((k.node, j) :: k.above) m

/-- The cursor stands in the child in a field. -/
def Within (field : String) (k c : Cursor) : Prop := ∃ j, k.node.childIndex? field = some j ∧ InChild k j c

/-- The cursor stands behind the receiver and before the selector. -/
def Between (k c : Cursor) : Prop :=
  ∃ first last j, k.node.childIndex? "receiver" = some first ∧ k.node.childIndex? "method" = some last ∧
    first < j ∧ j < last ∧ InChild k j c

/-- The cursor stands at an operator of the call. -/
def AtOperator (k c : Cursor) : Prop :=
  (∃ j, k.childAt? j = some c) ∧ c.node.named = false ∧ (c.node.kind = "." ∨ c.node.kind = "::")

theorem InChild.index_eq {i j : Nat} (hi : InChild k i c) (hj : InChild k j c) : i = j := by
  obtain ⟨x, -, hx⟩ := hi
  obtain ⟨y, -, hy⟩ := hj
  exact index_eq_of_mem_preorder hx hy

theorem not_within_of_between {field : String} (h : Between k c) (hfield : field = "receiver" ∨ field = "method") :
    ¬ Within field k c := by
  intro ⟨i, hi, hin⟩
  obtain ⟨first, last, j, hfirst, hlast, hlt, hlt', hj⟩ := h
  have heq := hin.index_eq hj
  rcases hfield with rfl | rfl
  · have : first = i := by simpa [hfirst] using hi
    omega
  · have : last = i := by simpa [hlast] using hi
    omega

section

variable {size first last : Nat} {receiver selector : Node}

/-- From the receiver to the selector there are these two and what is between them. -/
theorem Stretch.inChild_iff (h : Stretch k.node e first last receiver selector) (hlt : first < last) :
    (∃ j, first ≤ j ∧ j ≤ last ∧ InChild k j c) ↔ Within "receiver" k c ∨ Between k c ∨ Within "method" k c := by
  refine ⟨fun ⟨j, h1, h2, hj⟩ => ?_, fun hc => ?_⟩
  · by_cases hfirst : j = first
    · exact Or.inl ⟨first, h.receiverIn, hfirst ▸ hj⟩
    · by_cases hlast : j = last
      · exact Or.inr (Or.inr ⟨last, h.methodIn, hlast ▸ hj⟩)
      · exact Or.inr (Or.inl ⟨first, last, j, h.receiverIn, h.methodIn, by omega, by omega, hj⟩)
  · rcases hc with ⟨j, hj, hin⟩ | ⟨i, i', j, hi, hi', h1, h2, hin⟩ | ⟨j, hj, hin⟩
    · obtain rfl : first = j := by simpa [h.receiverIn] using hj
      exact ⟨first, Nat.le_refl _, hlt.le, hin⟩
    · obtain rfl : first = i := by simpa [h.receiverIn] using hi
      obtain rfl : last = i' := by simpa [h.methodIn] using hi'
      exact ⟨j, h1.le, h2.le, hin⟩
    · obtain rfl : last = j := by simpa [h.methodIn] using hj
      exact ⟨last, hlt.le, Nat.le_refl _, hin⟩

/-- With the receiver in front, the end of the edit is not before its start. -/
theorem Stretch.upright (h : Stretch k.node e first last receiver selector) (hs : k.node.Spanned size) (hlt : first < last) :
    e.start ≤ e.stop := by
  have := stop_le_start hs h.receiverAt h.selectorAt hlt
  have := h.receiverCovers
  have := h.selectorCovers
  rw [h.start, h.stop]
  omega

/-- What stands from the receiver to the selector is replaced as a whole. -/
theorem Stretch.covers (h : Stretch k.node e first last receiver selector) (hs : k.node.Spanned size) {j : Nat}
    (h1 : first ≤ j) (h2 : j ≤ last) (hc : InChild k j c) : e.start ≤ c.node.start ∧ c.node.stop ≤ e.stop := by
  obtain ⟨m, hm, hin⟩ := hc
  have hbetween := h.between hs hm h1 h2
  have hinside := ((hs.child (List.mem_of_getElem? hm)).visited hin).2
  omega

/-- An edit meets no leaf outside of its call, and in the call none before the receiver or behind the selector. -/
theorem Stretch.inChild_of_meets (h : Stretch k.node e first last receiver selector) (ht : tree.Spanned size)
    (hk : k ∈ preorder [] tree) (hc : Leaf tree c) (hlt : first < last) (hmeets : e.Meets c.node) :
    ∃ j, first ≤ j ∧ j ≤ last ∧ InChild k j c := by
  obtain ⟨hs, -⟩ := ht.visited hk
  have hinside := h.inside hs
  unfold Edit.Meets at hmeets
  rcases compare_preorder hk hc.visited with rfl | ⟨j, m, hm, hin⟩ | ⟨j, m, hm, -⟩ | hbeside | hbeside
  · -- a call has children
    have := h.receiverAt
    simp [hc.childless] at this
  · refine ⟨j, ?_⟩
    by_contra hno
    have hout : ¬ (first ≤ j ∧ j ≤ last) := fun hj => hno ⟨hj.1, hj.2, m, hm, hin⟩
    have hcovers := ((hs.child (List.mem_of_getElem? hm)).visited hin).2
    rcases h.outside hs (h.upright hs hlt) hm hout with hbefore | hbehind
    · omega
    · omega
  · simp [hc.childless] at hm
  · have := ht.beside hbeside
    omega
  · have := ht.beside hbeside
    omega

end

/-- An edit removes exactly the leaves of the receiver, of the selector and of what stands between them, each as a
whole. -/
theorem meets_iff (ht : tree.Spanned source.length) (hf : tree.ReceiversFirst) (hk : k ∈ preorder [] tree)
    (he : Asks source k e) (hc : Leaf tree c) :
    (e.Meets c.node ↔ Within "receiver" k c ∨ Between k c ∨ Within "method" k c) ∧
      (e.Meets c.node → e.start ≤ c.node.start ∧ c.node.stop ≤ e.stop) := by
  obtain ⟨hs, -⟩ := ht.visited hk
  obtain ⟨first, last, receiver, selector, hst⟩ := he.stretch hs
  have hlt : first < last := hf k.node (node_mem_nodes hk) he.isCall first hst.receiverIn last hst.methodIn
  have hcovers := hc.covers
  rw [← hst.inChild_iff hlt]
  refine ⟨⟨hst.inChild_of_meets ht hk hc hlt, fun ⟨j, h1, h2, hj⟩ => ?_⟩, fun hmeets => ?_⟩
  · have := hst.covers hs h1 h2 hj
    exact ⟨by omega, by omega⟩
  · obtain ⟨j, h1, h2, hj⟩ := hst.inChild_of_meets ht hk hc hlt hmeets
    exact hst.covers hs h1 h2 hj

/-- Each edit is asked for by a call. It removes every leaf from the receiver of the call to its selector, each as a
whole, and no other leaf. So it spares everything but the receiver, the operator and the selector exactly if nothing
but the operator is between the two. -/
theorem removed_leaves (source : Bytes) (tree : Node) (ht : tree.Spanned source.length) (hf : tree.ReceiversFirst) :
    (∀ e ∈ (checkTree source tree).edits, ∃ k ∈ preorder [] tree, Asks source k e) ∧
    ∀ k ∈ preorder [] tree, ∀ e, Asks source k e →
      e ∈ (checkTree source tree).edits ∧
      (∀ c, Leaf tree c →
        (e.Meets c.node ↔ Within "receiver" k c ∨ Between k c ∨ Within "method" k c) ∧
        (e.Meets c.node → e.start ≤ c.node.start ∧ c.node.stop ≤ e.stop)) ∧
      ((∀ c, Leaf tree c → e.Meets c.node → Within "receiver" k c ∨ AtOperator k c ∨ Within "method" k c) ↔
        ∀ c, Leaf tree c → Between k c → AtOperator k c) := by
  refine ⟨fun e he => mem_edits_iff.1 he, fun k hk e he => ⟨mem_edits_iff.2 ⟨k, hk, he⟩, fun c hc => meets_iff ht hf hk he hc,
    fun hspares c hc hbetween => ?_, fun hoperator c hc hmeets => ?_⟩⟩
  · have hmeets := (meets_iff ht hf hk he hc).1.2 (Or.inr (Or.inl hbetween))
    rcases hspares c hc hmeets with hin | hat | hin
    · exact absurd hin (not_within_of_between hbetween (Or.inl rfl))
    · exact hat
    · exact absurd hin (not_within_of_between hbetween (Or.inr rfl))
  · rcases (meets_iff ht hf hk he hc).1.1 hmeets with hin | hbetween | hin
    · exact Or.inl hin
    · exact Or.inr (Or.inl (hoperator c hc hbetween))
    · exact Or.inr (Or.inr hin)

/-- A comment between the receiver and the operator. -/
def remarkSource : Bytes := Bytes.ofString "Timecop\n  # why\n  .freeze\n"

def remark : Node := ⟨"comment", ⟨10, 15, ⟨1, 2⟩, ⟨1, 7⟩⟩, true, false, false, none, []⟩

def remarkReceiver : Node := lineNode "constant" 0 7 true (some "receiver") []

def remarkOperator : Node := ⟨".", ⟨18, 19, ⟨2, 2⟩, ⟨2, 3⟩⟩, false, false, false, none, []⟩

def remarkSelector : Node := ⟨"identifier", ⟨19, 25, ⟨2, 3⟩, ⟨2, 9⟩⟩, true, false, false, some "method", []⟩

def remarkCall : Node :=
  ⟨"call", ⟨0, 25, ⟨0, 0⟩, ⟨2, 9⟩⟩, true, false, false, none, [remarkReceiver, remark, remarkOperator, remarkSelector]⟩

def remarkTree : Node := ⟨"program", ⟨0, 26, ⟨0, 0⟩, ⟨3, 0⟩⟩, true, false, false, none, [remarkCall]⟩

theorem mem_remarkTree : ⟨remarkCall, [(remarkTree, 0)]⟩ ∈ preorder [] remarkTree :=
  child_mem_preorder (self_mem_preorder remarkTree []) rfl

theorem leaf_remark : Leaf remarkTree ⟨remark, [(remarkCall, 1), (remarkTree, 0)]⟩ :=
  ⟨child_mem_preorder mem_remarkTree rfl, rfl, by decide⟩

theorem between_remark :
    Between ⟨remarkCall, [(remarkTree, 0)]⟩ ⟨remark, [(remarkCall, 1), (remarkTree, 0)]⟩ :=
  ⟨0, 3, 1, rfl, rfl, by decide, by decide, remark, rfl, self_mem_preorder _ _⟩

theorem asks_remarkCall : Asks remarkSource ⟨remarkCall, [(remarkTree, 0)]⟩ ⟨0, 25, "freeze_time"⟩ := by
  have hs : Sends remarkSource ⟨remarkCall, [(remarkTree, 0)]⟩ remarkReceiver remarkSelector "freeze" :=
    ⟨rfl, rfl, .constant rfl (Node.text_eq rfl), rfl, by decide, ⟨remarkOperator, rfl, Or.inl rfl⟩,
      isAssigned_eq_false_iff.1 rfl, Node.text_eq rfl⟩
  exact .freeze hs (argumentCount_eq_zero_iff.1 rfl)

/-- The comment is removed with the call, all of it. -/
theorem remark_removed : remarkTree.Spanned remarkSource.length ∧ remarkTree.ReceiversFirst ∧
    ∃ e ∈ (checkTree remarkSource remarkTree).edits, e.Meets remark ∧ e.start ≤ remark.start ∧ remark.stop ≤ e.stop := by
  have ht : remarkTree.Spanned remarkSource.length := by decide
  have hf : remarkTree.ReceiversFirst := by decide
  obtain ⟨-, hcalls⟩ := removed_leaves remarkSource remarkTree ht hf
  obtain ⟨hmem, hleaves, -⟩ := hcalls _ mem_remarkTree _ asks_remarkCall
  obtain ⟨hiff, hwhole⟩ := hleaves _ leaf_remark
  have hmeets := hiff.2 (Or.inr (Or.inl between_remark))
  exact ⟨ht, hf, _, hmem, hmeets, hwhole hmeets⟩

/-- An edit can remove more than the receiver, the operator and the selector: a comment is none of the three. -/
theorem remark_not_spared : remarkTree.Spanned remarkSource.length ∧ remarkTree.ReceiversFirst ∧
    ∃ k ∈ preorder [] remarkTree, ∃ e ∈ (checkTree remarkSource remarkTree).edits, Asks remarkSource k e ∧
      ∃ c, Leaf remarkTree c ∧ c.node = remark ∧ e.Meets c.node ∧
        ¬ (Within "receiver" k c ∨ AtOperator k c ∨ Within "method" k c) := by
  refine ⟨by decide, by decide, _, mem_remarkTree, _, mem_edits_iff.2 ⟨_, mem_remarkTree, asks_remarkCall⟩, asks_remarkCall,
    _, leaf_remark, rfl, ⟨by decide, by decide⟩, fun h => ?_⟩
  rcases h with hin | ⟨-, hbare, -⟩ | hin
  · exact not_within_of_between between_remark (Or.inl rfl) hin
  · cases hbare
  · exact not_within_of_between between_remark (Or.inr rfl) hin

end Offense

end TimeLint
