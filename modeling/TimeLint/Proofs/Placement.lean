import TimeLint.Proofs.Correction
import TimeLint.Proofs.EditChain

/-! Where the edits of a tree stand. A node's edits stay within its extent, unless the node is the receiver
of a corrected call; then it has one edit, which ends with the call's selector. So the edits of a tree
follow each other in the source, and the batch is never refused. -/

namespace TimeLint

/-- Each character is read from a byte of its own. -/
theorem Bytes.length_decodeCharsLossy_le (bs : Bytes) : (decodeCharsLossy bs).length ≤ bs.length := by
  induction bs using decodeCharsLossy.induct with
  | case1 => simp [decodeCharsLossy]
  | case2 b rest hnone ih =>
    rw [decodeCharsLossy, hnone]
    simp only [List.length_cons]
    omega
  | case3 b rest c more hsome ih =>
    rw [decodeCharsLossy, hsome]
    simp only [List.length_cons, List.length_drop] at ih ⊢
    omega

/-- The text of a node has no more characters than the node has bytes. -/
theorem Node.Nested.length_text_le {size : Nat} {n : Node} (hn : n.Nested size) (source : Bytes) :
    ((n.text source).length : Int) ≤ n.stop - n.start := by
  have hle := Bytes.length_decodeCharsLossy_le (source.slice n.start n.stop)
  have hnonneg := hn.nonneg
  have hforward := hn.forward
  have hslice : ((source.slice n.start n.stop).length : Int) ≤ n.stop - n.start := by
    simp only [Bytes.slice, Bytes.clip, List.length_drop, List.length_take]
    split <;> split <;> omega
  rw [Node.text, Bytes.decodeLossy, String.length_ofList]
  omega

namespace Offense

open Cursor

variable {source : Bytes} {size : Nat}

/-- `f` finds nothing but at references to the target. -/
def AtTargets {β : Type} (source : Bytes) (f : Cursor → Option β) : Prop :=
  ∀ c, isTarget source c = false → f c = none

theorem atTargets_editAt : AtTargets source (editAt source) := by
  intro c hc
  rw [editAt_eq, hc]
  rfl

section

variable {β : Type} {f : Cursor → Option β}

theorem gather_of_bare (hf : AtTargets source f) {above : List (Node × Nat)} {n : Node} (h : ¬ n.HoldsConstant) :
    gather f above n = [] := by
  rw [gather, List.filterMap_eq_nil_iff]
  intro c hc
  exact hf c (isTarget_of_kind fun hk => h ⟨c.node, node_mem_nodes hc, hk⟩)

theorem gathers_of_bare (hf : AtTargets source f) {p : Node} {above : List (Node × Nat)} {i : Nat} {ns : List Node}
    (h : ∀ n ∈ ns, ¬ n.HoldsConstant) : gathers f p above i ns = [] := by
  induction ns generalizing i with
  | nil => rfl
  | cons n ns ih =>
    rw [gathers_cons, gather_of_bare hf (h n (by simp)), ih fun m hm => h m (by simp [hm])]
    rfl

theorem split_at {ns : List Node} {i : Nat} {n : Node} (h : ns[i]? = some n) :
    ns = ns.take i ++ n :: ns.drop (i + 1) := by
  obtain ⟨hi, rfl⟩ := List.getElem?_eq_some_iff.1 h
  rw [← List.drop_eq_getElem_cons hi, List.take_append_drop]

theorem length_take_of_getElem? {ns : List Node} {i : Nat} {n : Node} (h : ns[i]? = some n) : (ns.take i).length = i := by
  have := (List.getElem?_eq_some_iff.1 h).1
  simp only [List.length_take]
  omega

theorem getElem?_take_eq_some {ns : List Node} {i j : Nat} {n : Node} (h : (ns.take i)[j]? = some n) :
    j < i ∧ ns[j]? = some n := by
  rw [List.getElem?_take] at h
  split at h
  · exact ⟨by assumption, h⟩
  · cases h

/-- Siblings keep their order in the source. -/
theorem stop_le_start {p a b : Node} {j k : Nat} (hg : p.Spanned size) (hj : p.children[j]? = some a)
    (hk : p.children[k]? = some b) (hlt : j < k) : a.stop ≤ b.start := by
  have hrow := hg.row
  rw [split_at hj] at hrow
  obtain ⟨-, -, hback⟩ := hrow.split
  have hk' : (p.children.drop (j + 1))[k - (j + 1)]? = some b := by
    rw [List.getElem?_drop, show j + 1 + (k - (j + 1)) = k by omega]
    exact hk
  rw [split_at hk'] at hback
  exact hback.split.1.le

/-- The siblings of the name of a scope resolution without a scope hold no constant. -/
theorem bare_beside_name {n : Node} {j : Nat} (hn : n.Arranged) (hk : n.kind = "scope_resolution")
    (hs : n.child? "scope" = none) (hj : n.childIndex? "name" = some j) :
    (∀ c ∈ n.children.take j, ¬ c.HoldsConstant) ∧ ∀ c ∈ n.children.drop (j + 1), ¬ c.HoldsConstant := by
  have key : ∀ k c, n.children[k]? = some c → k ≠ j → ¬ c.HoldsConstant := by
    intro k c hc hne
    refine hn.nameAlone hk hs (c, k) (List.mk_mem_zipIdx_iff_getElem?.2 hc) ?_
    rw [hj]
    simpa using fun h => hne h.symm
  constructor
  · intro c hc
    obtain ⟨k, hk, rfl⟩ := List.mem_take_iff_getElem.1 hc
    exact key k _ (List.getElem?_eq_getElem (by omega)) (by omega)
  · intro c hc
    obtain ⟨k, hk, rfl⟩ := List.mem_drop_iff_getElem.1 hc
    exact key (j + 1 + k) _ (List.getElem?_eq_getElem (by omega)) (by omega)

/-- All that the receiver of a corrected call holds is the constant that the call is made on. -/
theorem gather_receiver (hf : AtTargets source f) {p n : Node} {i : Nat} {above : List (Node × Nat)} {e : Edit}
    (hg : n.Grammatical size) (hn : p.children[i]? = some n) (h : carried? source ((p, i) :: above) = some e) :
    ∃ c, editAt source c = some e ∧ gather f ((p, i) :: above) n = (f c).toList := by
  rcases editAt_of_carried? hn h with he | ⟨hk, j, c, hj, hc, he⟩
  · exact ⟨_, he, gather_leaf f (hg.arranged.constantLeaf (editAt_constant he).2.1)⟩
  · obtain ⟨ht, hconst, -⟩ := editAt_constant he
    obtain ⟨hpre, hpost⟩ := bare_beside_name hg.arranged hk (scope_of_isTarget ht hk hj) hj
    have hleaf := (hg.child (List.mem_of_getElem? hc)).arranged.constantLeaf hconst
    have hself : f ⟨n, (p, i) :: above⟩ = none := hf _ (isTarget_of_kind (by simp [hk]))
    refine ⟨_, he, ?_⟩
    rw [gather_eq, hself, split_at hc, gathers_append, gathers_cons, gathers_of_bare hf hpre,
      gathers_of_bare hf hpost, length_take_of_getElem? hc, Nat.zero_add, gather_leaf f hleaf]
    simp

/-- A selector is no reference. -/
theorem gather_selector (hf : AtTargets source f) {p n : Node} {i : Nat} {above : List (Node × Nat)}
    (hk : p.kind = "call") (hi : p.childIndex? "method" = some i) (hleaf : n.children = []) :
    gather f ((p, i) :: above) n = [] := by
  rw [gather_leaf f hleaf, hf _ (isTarget_method hk hi)]
  rfl

end

/-- Siblings whose edits stay within them have their edits in a row. -/
theorem chain_gathers {p : Node} {above : List (Node × Nat)} {i : Nat} {lo hi : Int} {ns : List Node}
    (hrow : Node.Row lo hi ns)
    (h : ∀ j n, ns[j]? = some n → Edit.Chain n.start n.stop (gather (editAt source) ((p, i + j) :: above) n)) :
    Edit.Chain lo hi (gathers (editAt source) p above i ns) := by
  induction ns generalizing i lo with
  | nil => exact hrow
  | cons n ns ih =>
    obtain ⟨h1, h2, h3⟩ := hrow
    rw [gathers_cons]
    have hn := h 0 n rfl
    have hns : Edit.Chain n.stop hi (gathers (editAt source) p above (i + 1) ns) := by
      refine ih h3 fun j m hm => ?_
      rw [show i + 1 + j = i + (j + 1) by omega]
      exact h (j + 1) m hm
    exact (Edit.Chain.nil h1).append (hn.append hns)

/-- A corrected call, cut up at its receiver and its selector. -/
structure Cut (source : Bytes) (p : Node) (e : Edit) (i k : Nat) (receiver selector : Node) : Prop where
  corrects : Corrects source p e i receiver selector
  receiverAt : p.children[i]? = some receiver
  methodAt : p.childIndex? "method" = some k
  selectorAt : p.children[k]? = some selector
  before : i < k
  leaf : selector.children = []
  split : p.children = p.children.take i ++ receiver :: ((p.children.take k).drop (i + 1) ++
    selector :: p.children.drop (k + 1))

theorem cut_of_correction? {p : Node} {above : List (Node × Nat)} {e : Edit} (hp : p.Arranged)
    (h : correction? source ⟨p, above⟩ = some e) : ∃ i k receiver selector, Cut source p e i k receiver selector := by
  have hk : p.kind = "call" := isCall_of_correction? h
  obtain ⟨i, receiver, hi, hr⟩ := receiver_of_correction? h
  obtain ⟨selector, hc⟩ := corrects_of_carried? hr ((carried?_receiver hi).trans h)
  obtain ⟨k, hm, hs⟩ := Node.child?_eq_some hc.method
  have hlt : i < k := hp.receiverFirst hk i hi k hm
  refine ⟨i, k, receiver, selector, hc, hr, hm, hs, hlt, hp.selectorLeaf hk selector hc.method hc.explicit, ?_⟩
  have h1 : (p.children.take k)[i]? = some receiver := by rw [List.getElem?_take_of_lt hlt, hr]
  have h2 := split_at h1
  rw [List.take_take, Nat.min_eq_left (Nat.le_of_lt hlt)] at h2
  conv_lhs => rw [split_at hs, h2]
  simp

/-- Of the children of a corrected call, only the receiver takes part in the edit. -/
theorem Cut.carried?_other {p receiver selector : Node} {above : List (Node × Nat)} {e : Edit} {i k j : Nat}
    (c : Cut source p e i k receiver selector) (hj : j ≠ i) : carried? source ((p, j) :: above) = none := by
  refine Offense.carried?_other ?_
  rw [c.corrects.receiver]
  simpa using fun h => hj h.symm

/-- What is found in a corrected call: what its other children hold, and between them the constant that the
call is made on. -/
theorem Cut.gathers_eq {β : Type} {f : Cursor → Option β} (hf : AtTargets source f) {p receiver selector : Node}
    {above : List (Node × Nat)} {e : Edit} {i k : Nat} (c : Cut source p e i k receiver selector)
    (hg : p.Grammatical size) (h : correction? source ⟨p, above⟩ = some e) :
    ∃ x, editAt source x = some e ∧ gathers f p above 0 p.children = gathers f p above 0 (p.children.take i) ++
      ((f x).toList ++ gathers f p above (k + 1) (p.children.drop (k + 1))) := by
  have hk : k < p.children.length := (List.getElem?_eq_some_iff.1 c.selectorAt).1
  have hik := c.before
  obtain ⟨x, hx, hreceiver⟩ := gather_receiver hf (hg.child (List.mem_of_getElem? c.receiverAt)) c.receiverAt
    ((carried?_receiver c.corrects.receiver).trans h)
  have hselector : gather f ((p, k) :: above) selector = [] := gather_selector hf c.corrects.isCall c.methodAt c.leaf
  have hbetween : gathers f p above (i + 1) ((p.children.take k).drop (i + 1)) = [] :=
    gathers_of_bare hf (hg.arranged.bareBetween c.corrects.isCall i c.corrects.receiver k c.methodAt)
  have hlen : i + 1 + ((p.children.take k).drop (i + 1)).length = k := by
    simp only [List.length_drop, List.length_take]
    omega
  refine ⟨x, hx, ?_⟩
  conv_lhs => rw [c.split]
  rw [gathers_append, gathers_cons, gathers_append, gathers_cons, length_take_of_getElem? c.receiverAt, Nat.zero_add,
    hreceiver, hbetween, hlen, hselector]
  rfl

/-- The edit of a corrected call covers bytes, and the call's other children stand before and behind it. -/
theorem Cut.rows {p receiver selector : Node} {e : Edit} {i k : Nat} (c : Cut source p e i k receiver selector)
    (hg : p.Grammatical size) :
    Node.Row p.start e.start (p.children.take i) ∧ e.start < e.stop ∧ Node.Row e.stop p.stop (p.children.drop (k + 1)) := by
  have hrow := hg.row
  rw [c.split] at hrow
  obtain ⟨hfront, hreceiver, hrest⟩ := hrow.split
  obtain ⟨hmiddle, hselector, hback⟩ := hrest.split
  have htext : (selector.text source).length = 6 := by
    rcases c.corrects.name with h | h <;> rw [h] <;> rfl
  have hlt := (hg.child (List.mem_of_getElem? c.selectorAt)).nested.length_text_le source
  have hle := hmiddle.le
  rw [c.corrects.start, c.corrects.stop]
  exact ⟨hfront, by omega, hback⟩

/-- A node that is no receiver of a corrected call, and no correctable constant, has its edits within its
extent. -/
theorem chain_gather {n : Node} {above : List (Node × Nat)} (hg : n.Grammatical size)
    (ha : Cursor.Attached ⟨n, above⟩) (hself : editAt source ⟨n, above⟩ = none) (hout : carried? source above = none) :
    Edit.Chain n.start n.stop (gather (editAt source) above n) := by
  induction n using Node.induct generalizing above with
  | step n ih =>
    have hchild : ∀ j c, n.children[j]? = some c → carried? source ((n, j) :: above) = none →
        Edit.Chain c.start c.stop (gather (editAt source) ((n, j) :: above) c) := by
      intro j c hj hin
      have hc := List.mem_of_getElem? hj
      exact ih c hc (hg.child hc) (Cursor.attached_child hj) (editAt_child ha hj hout hin) hin
    rw [gather_eq, hself, Option.toList_none, List.nil_append]
    cases hcor : correction? source ⟨n, above⟩ with
    | none =>
      refine chain_gathers hg.row fun j c hj => ?_
      rw [Nat.zero_add]
      exact hchild j c hj (by simp [carried?, hcor])
    | some e =>
      obtain ⟨i, k, receiver, selector, hcut⟩ := cut_of_correction? hg.arranged hcor
      obtain ⟨hfront, hlt, hback⟩ := hcut.rows hg
      obtain ⟨x, hx, hedits⟩ := hcut.gathers_eq atTargets_editAt hg hcor
      have hik := hcut.before
      rw [hedits, hx]
      refine Edit.Chain.append (chain_gathers hfront fun j c hj => ?_)
        ⟨Int.le_refl _, hlt, chain_gathers hback fun j c hj => ?_⟩
      · obtain ⟨hlt, hj⟩ := getElem?_take_eq_some hj
        rw [Nat.zero_add]
        exact hchild j c hj (hcut.carried?_other (by omega))
      · rw [List.getElem?_drop] at hj
        exact hchild (k + 1 + j) c hj (hcut.carried?_other (by omega))

theorem chain_checkTree {source : Bytes} {tree : Node} (h : tree.Grammatical source.length) :
    Edit.Chain 0 source.length (checkTree source tree).edits := by
  rw [checkTree_edits]
  have hchain : Edit.Chain tree.start tree.stop (gather (editAt source) [] tree) :=
    chain_gather h (Cursor.attached_root tree) (editAt_root tree) rfl
  exact hchain.widen h.nested.nonneg h.nested.bounded

/-- The edits of a grammatical tree follow each other in the source, so that they can always be made. -/
theorem checkTree_edits_disjoint (source : Bytes) (tree : Node) (h : tree.Grammatical source.length) :
    (∀ e ∈ (checkTree source tree).edits, 0 ≤ e.start ∧ e.start < e.stop ∧ e.stop ≤ source.length) ∧
      (checkTree source tree).edits.IsChain (fun a b => a.stop ≤ b.start) ∧
      ∃ fixed, Edit.apply source (checkTree source tree).edits = .ok fixed := by
  have hchain := chain_checkTree h
  exact ⟨hchain.mem, hchain.pairwise.isChain, _, Edit.apply_of_chain hchain⟩

/-- A node on the first line. -/
def lineNode (kind : String) (start stop : Int) (named : Bool) (field : Option String) (cs : List Node) : Node :=
  ⟨kind, ⟨start, stop, ⟨0, start⟩, ⟨0, stop⟩⟩, named, false, false, field, cs⟩

/-- A call that starts like `Timecop.freeze` does: seven letters, a dot, six letters. -/
def sendAt (start stop : Int) (field : Option String) (rest : List Node) : Node :=
  lineNode "call" start stop true field
    (lineNode "constant" start (start + 7) true (some "receiver") [] ::
      lineNode "." (start + 7) (start + 8) false none [] ::
      lineNode "identifier" (start + 8) (start + 14) true (some "method") [] :: rest)

/-- A corrected call in the block of a corrected call. -/
def nestedSource : Bytes := Bytes.ofString "Timecop.freeze \x7b Timecop.return \x7d"

def nestedTree : Node :=
  lineNode "program" 0 33 true none
    [sendAt 0 33 none
      [lineNode "block" 15 33 true (some "block")
        [lineNode "\x7b" 15 16 false none [], sendAt 17 31 none [], lineNode "\x7d" 32 33 false none []]]]

theorem nested_edits_disjoint : nestedTree.Grammatical nestedSource.length ∧
    (checkTree nestedSource nestedTree).edits = [⟨0, 14, "freeze_time"⟩, ⟨17, 31, "travel_back"⟩] ∧
    ∃ fixed, Edit.apply nestedSource (checkTree nestedSource nestedTree).edits = .ok fixed := by
  have hg : nestedTree.Grammatical nestedSource.length := by decide +kernel
  refine ⟨hg, ?_, (checkTree_edits_disjoint nestedSource nestedTree hg).2.2⟩
  rw [checkTree_edits]
  decide +kernel

end Offense

end TimeLint
