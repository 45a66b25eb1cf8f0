import TimeLint.Proofs.Tangles

/-! Where offenses are reported. Diagnostics come in the order in which their references stand in the source. A range
ends with its reference or with a child of the call on it, so a later reference stands behind the range, or in the
range together with its own call: no two ranges overlap in part. -/

namespace TimeLint

/-- In each call whose selector is a name, the arguments stand behind the selector. -/
def Node.ArgumentsLast (t : Node) : Prop :=
  ∀ n ∈ t.nodes, n.kind = "call" → ∀ m ∈ n.child? "method", m.kind ≠ "argument_list" →
    ∀ i ∈ n.childIndex? "method", ∀ j ∈ n.childIndex? "arguments", i < j

instance (t : Node) : Decidable t.ArgumentsLast :=
  inferInstanceAs (Decidable (∀ n ∈ t.nodes, n.kind = "call" → ∀ m ∈ n.child? "method", m.kind ≠ "argument_list" →
    ∀ i ∈ n.childIndex? "method", ∀ j ∈ n.childIndex? "arguments", i < j))

namespace Offense

open Cursor

variable {source : Bytes} {size : Nat} {tree : Node} {a b c r : Cursor}

/-- The range that the reference at `r` is reported at. -/
def rangeOn (source : Bytes) (r : Cursor) : SourceRange := Reference.range ⟨r.node, callOn source r⟩

theorem range_of_reported {d : Diagnostic} (h : reported source c = some d) :
    isTarget source c = true ∧ d.range = rangeOn source (referenceAt c) := by
  obtain ⟨x, hx, rfl⟩ := Option.map_eq_some_iff.1 h
  unfold reference? at hx
  split at hx
  · obtain rfl := Option.some.inj hx
    exact ⟨by assumption, rfl⟩
  · cases hx

theorem rangeOn_start (source : Bytes) (r : Cursor) : (rangeOn source r).start = r.node.start := by
  unfold rangeOn Reference.range
  split <;> rfl

/-- What a range ends with: the reference, or in the call on it the selector or the arguments of a selector that is a
name. -/
inductive RangeEnd (r : Cursor) (stop : Int) : Prop
  | bare (eq : stop = r.node.stop)
  | called {p m : Node} {i t : Nat} {above : List (Node × Nat)} (parent : r.above = (p, i) :: above)
      (isCall : p.kind = "call") (receiver : p.childIndex? "receiver" = some i) (child : p.children[t]? = some m)
      (field : p.childIndex? "method" = some t ∨
        p.childIndex? "arguments" = some t ∧ ∃ s, p.child? "method" = some s ∧ s.kind ≠ "argument_list")
      (eq : stop = m.stop)

theorem rangeEnd_rangeOn (source : Bytes) (r : Cursor) : RangeEnd r (rangeOn source r).stop := by
  unfold rangeOn Reference.range
  cases hcall : callOn source r with
  | none => exact .bare rfl
  | some call =>
    obtain ⟨p, i, above, selector, hparent, hk, hr, hm, -, rfl⟩ := callOn_eq_some hcall
    obtain ⟨t, ht, hselector⟩ := Node.child?_eq_some hm
    by_cases himplicit : selector.kind = "argument_list"
    · exact .called hparent hk hr hselector (Or.inl ht) (by simp [rangeOf, callWith, himplicit])
    · cases harguments : p.child? "arguments" with
      | none => exact .called hparent hk hr hselector (Or.inl ht) (by simp [rangeOf, callWith, himplicit, harguments])
      | some list =>
        obtain ⟨u, hu, hlist⟩ := Node.child?_eq_some harguments
        exact .called hparent hk hr hlist (Or.inr ⟨hu, selector, hm, himplicit⟩)
          (by simp [rangeOf, callWith, himplicit, harguments])

/-- A reference is the constant, or `::Name` around it. -/
theorem referenceAt_cases (h : isTarget source c = true) : referenceAt c = c ∨
    ∃ n j above, c.above = (n, j) :: above ∧ n.kind = "scope_resolution" ∧ n.child? "scope" = none ∧
      n.childIndex? "name" = some j ∧ referenceAt c = ⟨n, above⟩ := by
  obtain ⟨m, above⟩ := c
  cases above with
  | nil => exact Or.inl rfl
  | cons x above =>
    obtain ⟨n, j⟩ := x
    by_cases hname : n.kind = "scope_resolution" ∧ n.childIndex? "name" = some j
    · exact Or.inr ⟨n, j, above, rfl, hname.1, scope_of_isTarget h hname.1 hname.2, hname.2,
        referenceAt_name hname.1 hname.2⟩
    · exact Or.inl (referenceAt_other hname)

theorem kind_of_isTarget (h : isTarget source c = true) : c.node.kind = "constant" := by
  by_contra hk
  rw [isTarget_of_kind hk] at h
  cases h

theorem text_of_isTarget (h : isTarget source c = true) : c.node.text source = "Timecop" := by
  simp only [isTarget, Bool.and_eq_true, beq_iff_eq] at h
  exact h.1.2

/-- A reference in the tree holds its constant, so it covers bytes. -/
theorem reference_covers (ht : tree.Spanned size) (hc : c ∈ preorder [] tree) (h : isTarget source c = true) :
    (referenceAt c).node.start < (referenceAt c).node.stop := by
  have hlength := (ht.visited hc).1.nested.length_text_le source
  rw [text_of_isTarget h] at hlength
  have hseven : "Timecop".length = 7 := rfl
  rcases referenceAt_cases h with hself | ⟨n, j, above, habove, -, -, -, href⟩
  · rw [hself]
    omega
  · obtain ⟨m, up⟩ := c
    obtain rfl : up = (n, j) :: above := habove
    obtain ⟨hn, hj⟩ := parent_mem_preorder hc
    have hinside := (ht.visited hn).1.nested.inside m (List.mem_of_getElem? hj)
    rw [href]
    simp only at *
    omega

/-- A reference stands below a child together with its constant, if another child holds a constant too. -/
theorem referenceAt_mem_child {p : Cursor} {i j : Nat} {x y : Node} (hp : p.node.Arranged)
    (hj : p.node.children[j]? = some y) (hne : j ≠ i) (hy : y.HoldsConstant) (h : isTarget source c = true)
    (hc : c ∈ preorder ((p.node, i) :: p.above) x) : referenceAt c ∈ preorder ((p.node, i) :: p.above) x := by
  rcases referenceAt_cases h with hself | ⟨n, k, above, habove, hk, hscope, hname, href⟩
  · rw [hself]
    exact hc
  · rw [href]
    rcases cases_mem_preorder hc with rfl | ⟨q, k', rest, habove', hq, -⟩
    · -- the child itself is the name, and then it is the only child with a constant
      obtain ⟨⟨rfl, rfl⟩, rfl⟩ : (p.node = n ∧ i = k) ∧ p.above = above := by simpa using habove
      refine absurd hy (hp.nameAlone hk hscope (y, j) (List.mk_mem_zipIdx_iff_getElem?.2 hj) ?_)
      rw [hname]
      simpa using hne.symm
    · obtain ⟨⟨rfl, rfl⟩, rfl⟩ : (n = q ∧ k = k') ∧ above = rest := by simpa using habove.symm.trans habove'
      exact hq

/-- The range of a reference below a node ends in the node, unless the node is the reference and the receiver of a call. -/
theorem rangeOn_stop_le (source : Bytes) {n : Node} {above : List (Node × Nat)} (hs : n.Spanned size)
    (hr : r ∈ preorder above n) : (rangeOn source r).stop ≤ n.stop ∨
      ∃ (p m : Node) (i t : Nat) (rest : List (Node × Nat)), above = (p, i) :: rest ∧
        p.childIndex? "receiver" = some i ∧ p.children[t]? = some m ∧ (rangeOn source r).stop = m.stop := by
  cases rangeEnd_rangeOn source r with
  | bare heq =>
    left
    rw [heq]
    exact (hs.visited hr).2.2
  | @called p m i t rest hparent _ hreceiver hchild _ heq =>
    rcases cases_mem_preorder hr with rfl | ⟨q, j, up, habove, hq, -⟩
    · exact Or.inr ⟨p, m, i, t, rest, hparent, hreceiver, hchild, heq⟩
    · left
      obtain ⟨⟨rfl, rfl⟩, rfl⟩ : (p = q ∧ i = j) ∧ rest = up := by simpa using hparent.symm.trans habove
      obtain ⟨hspanned, -, hstop⟩ := hs.visited hq
      have hinside := (hspanned.nested.inside m (List.mem_of_getElem? hchild)).2
      rw [heq]
      exact Int.le_trans hinside hstop

/-- Siblings that are not in front of each other end in their order. -/
theorem stop_le_stop {p x y : Node} {i j : Nat} (hs : p.Spanned size) (hi : p.children[i]? = some x)
    (hj : p.children[j]? = some y) (hle : i ≤ j) : x.stop ≤ y.stop := by
  rcases Nat.lt_or_eq_of_le hle with hlt | rfl
  · have hbefore := stop_le_start hs hi hj hlt
    have hforward := (hs.child (List.mem_of_getElem? hj)).nested.forward
    omega
  · obtain rfl : x = y := by simpa [hi] using hj
    exact Int.le_refl _

/-- Of two references in order, the second starts behind the start of the first, and its range is behind the range of
the first or ends in it. -/
theorem rangeOn_beside (ht : tree.Grammatical size) (ha : isTarget source a = true) (hb : isTarget source b = true)
    (hab : Beside [] tree a b) (hmem : a ∈ preorder [] tree) :
    (rangeOn source (referenceAt a)).start < (rangeOn source (referenceAt b)).start ∧
      ((rangeOn source (referenceAt a)).stop ≤ (rangeOn source (referenceAt b)).start ∨
        (rangeOn source (referenceAt b)).stop ≤ (rangeOn source (referenceAt a)).stop) := by
  obtain ⟨p, hp, i, j, x, y, hij, hi, hj, hax, hby⟩ := hab
  have hcovers := reference_covers ht.spanned hmem ha
  have hpt := ht.visited hp
  have hxs := hpt.spanned.child (List.mem_of_getElem? hi)
  have hys := hpt.spanned.child (List.mem_of_getElem? hj)
  have hxy := stop_le_start hpt.spanned hi hj hij
  have hra := referenceAt_mem_child hpt.arranged hj (by omega) ⟨b.node, node_mem_nodes hby, kind_of_isTarget hb⟩ ha hax
  have hrb := referenceAt_mem_child hpt.arranged hi (by omega) ⟨a.node, node_mem_nodes hax, kind_of_isTarget ha⟩ hb hby
  have hx := (hxs.visited hra).2
  have hy := (hys.visited hrb).2
  simp only [rangeOn_start]
  refine ⟨by omega, ?_⟩
  rcases rangeOn_stop_le source hxs hra with hstop | ⟨q, m, k, t, rest, habove, hreceiver, hm, hstop⟩
  · left
    omega
  · -- the first reference is the receiver of a call, in which the second stands behind the receiver
    obtain ⟨⟨rfl, rfl⟩, rfl⟩ : (p.node = q ∧ i = k) ∧ p.above = rest := by simpa using habove
    rw [hstop]
    by_cases htj : t < j
    · left
      have hbehind := stop_le_start hpt.spanned hm hj htj
      omega
    · right
      have hlast := stop_le_stop hpt.spanned hj hm (by omega)
      rcases rangeOn_stop_le source hys hrb with hstop' | ⟨q, -, k, -, rest, habove', hreceiver', -, -⟩
      · omega
      · obtain ⟨⟨rfl, rfl⟩, -⟩ : (p.node = q ∧ j = k) ∧ p.above = rest := by simpa using habove'
        have : i = j := by simpa [hreceiver] using hreceiver'
        omega

/-- A range covers bytes of the source: it starts with the reference, and what it ends with stands behind. -/
theorem rangeOn_covers (ht : tree.Grammatical size) (hl : tree.ArgumentsLast) (hc : c ∈ preorder [] tree)
    (h : isTarget source c = true) : 0 ≤ (rangeOn source (referenceAt c)).start ∧
      (rangeOn source (referenceAt c)).start < (rangeOn source (referenceAt c)).stop ∧
      (rangeOn source (referenceAt c)).stop ≤ size := by
  have hr := referenceAt_mem_preorder hc
  have hcovers := reference_covers ht.spanned hc h
  have hnested := (ht.spanned.visited hr).1.nested
  have hnonneg := hnested.nonneg
  have hbounded := hnested.bounded
  rw [rangeOn_start]
  cases rangeEnd_rangeOn source (referenceAt c) with
  | bare heq =>
    rw [heq]
    exact ⟨hnonneg, hcovers, hbounded⟩
  | @called p m i t above hparent hcall hreceiver hchild hfield heq =>
    generalize referenceAt c = r at *
    obtain ⟨n, up⟩ := r
    obtain rfl : up = (p, i) :: above := hparent
    obtain ⟨hp, hi⟩ := parent_mem_preorder hr
    have hpt := ht.visited hp
    have hbehind : i < t := by
      rcases hfield with hmethod | ⟨harguments, s, hs, hname⟩
      · exact hpt.arranged.receiverFirst hcall i hreceiver t hmethod
      · obtain ⟨u, hu, -⟩ := Node.child?_eq_some hs
        have h1 := hpt.arranged.receiverFirst hcall i hreceiver u hu
        have h2 := hl p (node_mem_nodes hp) hcall s hs hname u hu t harguments
        omega
    have hstop := stop_le_start hpt.spanned hi hchild hbehind
    have hm := (hpt.spanned.child (List.mem_of_getElem? hchild)).nested
    have hforward := hm.forward
    have hsize := hm.bounded
    rw [heq]
    simp only at *
    exact ⟨hnonneg, by omega, hsize⟩

/-- Diagnostics come in source order: each range covers bytes of the source, starts behind the start of every earlier
one, and lies behind the earlier one or inside it. -/
theorem diagnostics_in_order (source : Bytes) (tree : Node) (ht : tree.Grammatical source.length)
    (hl : tree.ArgumentsLast) :
    (∀ d ∈ (checkTree source tree).diagnostics,
      0 ≤ d.range.start ∧ d.range.start < d.range.stop ∧ d.range.stop ≤ source.length) ∧
    (checkTree source tree).diagnostics.Pairwise fun d e => d.range.start < e.range.start ∧
      (d.range.stop ≤ e.range.start ∨ e.range.stop ≤ d.range.stop) := by
  rw [checkTree_diagnostics, gather]
  constructor
  · intro d hd
    obtain ⟨c, hc, hreported⟩ := List.mem_filterMap.1 hd
    obtain ⟨htarget, hrange⟩ := range_of_reported hreported
    rw [hrange]
    exact rangeOn_covers ht hl hc htarget
  · refine List.pairwise_filterMap.2 ((pairwise_preorder [] tree).imp_of_mem fun {a b} ha hb hab d hd e he => ?_)
    obtain ⟨htarget, hrange⟩ := range_of_reported hd
    obtain ⟨htarget', hrange'⟩ := range_of_reported he
    rw [hrange, hrange']
    rcases hab with ⟨i, m, hi, -⟩ | hab
    · -- nothing stands below a constant
      have hleaf := (ht.visited ha).arranged.constantLeaf (kind_of_isTarget htarget)
      simp [hleaf] at hi
    · exact rangeOn_beside ht htarget htarget' hab ha

/-- A call with a reference in its arguments and another one in its block, `Timecop.travel(::Timecop) {Timecop}`. -/
def guestSource : Bytes := Bytes.ofString "Timecop.travel(::Timecop) \x7bTimecop\x7d"

def guestTree : Node :=
  lineNode "program" 0 35 true none
    [sendAt 0 35 none
      [lineNode "argument_list" 14 25 true (some "arguments")
        [lineNode "(" 14 15 false none [],
         lineNode "scope_resolution" 15 24 true none
           [lineNode "::" 15 17 false none [], lineNode "constant" 17 24 true (some "name") []],
         lineNode ")" 24 25 false none []],
       lineNode "block" 26 35 true (some "block")
        [lineNode "\x7b" 26 27 false none [], lineNode "constant" 27 34 true none [], lineNode "\x7d" 34 35 false none []]]]

/-- The reference in the arguments is reported inside the range of the call, the one in the block behind it. -/
theorem guests_in_order : guestTree.Grammatical guestSource.length ∧ guestTree.ArgumentsLast ∧
    (checkTree guestSource guestTree).diagnostics.map (fun d => (d.range.start, d.range.stop)) =
      [(0, 25), (15, 24), (27, 34)] ∧
    (checkTree guestSource guestTree).diagnostics.Pairwise fun d e => d.range.start < e.range.start ∧
      (d.range.stop ≤ e.range.start ∨ e.range.stop ≤ d.range.stop) := by
  have ht : guestTree.Grammatical guestSource.length := by decide
  have hl : guestTree.ArgumentsLast := by decide
  refine ⟨ht, hl, ?_, (diagnostics_in_order guestSource guestTree ht hl).2⟩
  rw [checkTree_diagnostics]
  decide +kernel

end Offense

end TimeLint
