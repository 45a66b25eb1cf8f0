import TimeLint.Proofs.Spelling
import TimeLint.Proofs.Splicing

/-! What a check reads of the source. Of the bytes of a source it looks only at those that the constants of the tree
cover and those that the methods of its calls cover; everything else it has from the tree. So sources that agree on
these names are checked alike, whatever else they hold and however long they are. -/

namespace TimeLint

/-- The constants of the tree, and the children that name the methods of its calls. -/
def Node.names (tree : Node) : List Node :=
  tree.nodes.flatMap fun n =>
    (if n.kind = "constant" then [n] else []) ++ if n.kind = "call" then (n.child? "method").toList else []

theorem Node.mem_names {tree m : Node} : m ∈ tree.names ↔
    (m ∈ tree.nodes ∧ m.kind = "constant") ∨ ∃ n ∈ tree.nodes, n.kind = "call" ∧ n.child? "method" = some m := by
  have hentry : ∀ n : Node, m ∈ (if n.kind = "constant" then [n] else []) ++
      (if n.kind = "call" then (n.child? "method").toList else []) ↔
        (m = n ∧ n.kind = "constant") ∨ (n.kind = "call" ∧ n.child? "method" = some m) := by
    intro n
    rw [List.mem_append]
    by_cases hconstant : n.kind = "constant" <;> by_cases hcall : n.kind = "call" <;> simp [hconstant, hcall]
  rw [names, List.mem_flatMap]
  simp only [hentry]
  constructor
  · intro h
    obtain ⟨n, hn, ⟨rfl, hk⟩ | ⟨hk, hm⟩⟩ := h
    · exact Or.inl ⟨hn, hk⟩
    · exact Or.inr ⟨n, hn, hk, hm⟩
  · intro h
    rcases h with ⟨hn, hk⟩ | ⟨n, hn, hk, hm⟩
    · exact ⟨m, hn, Or.inl ⟨rfl, hk⟩⟩
    · exact ⟨n, hn, Or.inr ⟨hk, hm⟩⟩

/-- Sources that agree at every offset that a node covers agree on the bytes of the node. -/
theorem Node.bytes_congr {s t : Bytes} {n : Node} (hstart : 0 ≤ n.start) (hstop : 0 ≤ n.stop)
    (h : ∀ i : Nat, n.start ≤ i → i < n.stop → s[i]? = t[i]?) : n.bytes s = n.bytes t := by
  rw [bytes, bytes, Bytes.slice_eq hstart hstop, Bytes.slice_eq hstart hstop]
  refine List.ext_getElem? fun i => ?_
  rw [List.getElem?_drop, List.getElem?_drop, List.getElem?_take, List.getElem?_take]
  split
  · exact h _ (by omega) (by omega)
  · rfl

namespace Offense

open Cursor

variable {s t : Bytes} {tree : Node}

theorem text_congr {n : Node} (h : n.bytes s = n.bytes t) : n.text s = n.text t := congrArg Bytes.decodeLossy h

/-- Whether a node refers to the target depends on its bytes if it is a constant, and on no bytes otherwise. -/
theorem isTarget_congr {c : Cursor} (h : c.node.kind = "constant" → c.node.bytes s = c.node.bytes t) :
    isTarget s c = isTarget t c := by
  by_cases hk : c.node.kind = "constant"
  · simp only [isTarget, text_congr (h hk)]
  · rw [isTarget_of_kind hk, isTarget_of_kind hk]

/-- The call made on a reference depends on the bytes of its selector alone. -/
theorem callOn_congr {r : Cursor} (h : ∀ p i above m, r.above = (p, i) :: above → p.kind = "call" →
    p.child? "method" = some m → m.bytes s = m.bytes t) : callOn s r = callOn t r := by
  obtain ⟨n, above⟩ := r
  cases above with
  | nil => rfl
  | cons x above =>
    obtain ⟨p, i⟩ := x
    by_cases hp : p.kind = "call"
    · cases hm : p.child? "method" with
      | none => simp [callOn, parent?, hm]
      | some m =>
        have htext := text_congr (h p i above m rfl hp hm)
        simp [callOn, parent?, hm, callWith, htext]
    · simp [callOn, parent?, hp]

theorem reference?_congr {c : Cursor} (hc : c ∈ preorder [] tree) (h : ∀ n ∈ tree.names, n.bytes s = n.bytes t) :
    reference? s c = reference? t c := by
  have htarget : isTarget s c = isTarget t c :=
    isTarget_congr fun hk => h c.node (Node.mem_names.2 (Or.inl ⟨node_mem_nodes hc, hk⟩))
  have hcall : callOn s (referenceAt c) = callOn t (referenceAt c) := by
    have hr := referenceAt_mem_preorder hc
    refine callOn_congr fun p i above m habove hk hm => h m (Node.mem_names.2 (Or.inr ⟨p, ?_, hk, hm⟩))
    generalize referenceAt c = r at hr habove
    obtain ⟨n, up⟩ := r
    obtain rfl : up = (p, i) :: above := habove
    exact node_mem_nodes (parent_mem_preorder hr).1
  simp only [reference?, htarget, hcall]

/-- Sources that agree on the names of a tree have the same references, and these decide all. -/
theorem checkTree_congr (h : ∀ n ∈ tree.names, n.bytes s = n.bytes t) : checkTree s tree = checkTree t tree := by
  have hreferences : references s tree = references t tree := by
    rw [references, references, root, walk_node]
    exact List.filterMap_congr fun c hc => reference?_congr hc h
  simp only [checkTree, hreferences]

/-- A check depends on the source through the names of the tree alone: sources that agree on the names give the same
diagnostics and edits. So nothing that is changed at offsets that no name covers makes a difference. -/
theorem checked_by_names (tree : Node) (s t : Bytes) (h : ∀ n ∈ tree.names, n.bytes s = n.bytes t) :
    (checkTree s tree).diagnostics = (checkTree t tree).diagnostics ∧
    (checkTree s tree).edits = (checkTree t tree).edits ∧
    ((∀ n ∈ tree.names, 0 ≤ n.start ∧ 0 ≤ n.stop) → ∀ u : Bytes,
      (∀ n ∈ tree.names, ∀ i : Nat, n.start ≤ i → i < n.stop → u[i]? = s[i]?) → checkTree u tree = checkTree s tree) := by
  have hcheck := checkTree_congr h
  refine ⟨by rw [hcheck], by rw [hcheck], fun hnonneg u hu => checkTree_congr fun n hn => ?_⟩
  exact Node.bytes_congr (hnonneg n hn).1 (hnonneg n hn).2 (hu n hn)

/-- A call with a remark behind it that names the target too, `Timecop.return # Timecop.freeze`. -/
def notedSource : Bytes := Bytes.ofString "Timecop.return # Timecop.freeze"

def notedTree : Node := lineNode "program" 0 31 true none [sendAt 0 14 none [], lineNode "comment" 15 31 true none []]

/-- The same tree goes with a source that has no remark. -/
theorem noted_checked_by_names : (∀ n ∈ notedTree.names, n.bytes notedSource = n.bytes (Bytes.ofString "Timecop.return")) ∧
    ⟨0, 14, "travel_back"⟩ ∈ (checkTree notedSource notedTree).edits ∧
    (checkTree notedSource notedTree).edits = (checkTree (Bytes.ofString "Timecop.return") notedTree).edits := by
  have hagree : ∀ n ∈ notedTree.names, n.bytes notedSource = n.bytes (Bytes.ofString "Timecop.return") := by decide
  have hk : ⟨sendAt 0 14 none [], [(notedTree, 0)]⟩ ∈ preorder [] notedTree :=
    child_mem_preorder (self_mem_preorder notedTree []) rfl
  have hs : Sends notedSource ⟨sendAt 0 14 none [], [(notedTree, 0)]⟩ _ _ "return" := sends_sendAt rfl rfl (by simp) rfl
  exact ⟨hagree, mem_edits_iff.2 ⟨_, hk, .back hs rfl⟩, (checked_by_names notedTree _ _ hagree).2.1⟩

end Offense

end TimeLint
