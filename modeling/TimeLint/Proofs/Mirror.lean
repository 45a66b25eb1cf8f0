import TimeLint.Proofs.Survivors

/-! Nodes and their counterparts in the corrected tree. A node that survives is found again at the mirrored
place, in the same field of its parent; it makes a reference there if it made one before, and the call on
the reference sends the same method with as many arguments. -/

namespace TimeLint.Offense

open Cursor

/-- No corrected call is itself what stands for the arguments of a call. -/
def PlainArguments (source : Bytes) (tree : Node) : Prop :=
  ∀ c ∈ preorder [] tree, c.node.kind = "call" → ∀ a ∈ c.inField? "arguments", correction? source a = none

instance (source : Bytes) (tree : Node) : Decidable (PlainArguments source tree) :=
  inferInstanceAs (Decidable (∀ c ∈ preorder [] tree, _))

/-- What a tree and its source have to meet, and what the corrections make of both. -/
structure Amendment (source : Bytes) (tree : Node) (l : Layout) (fixed : Bytes) : Prop where
  grammatical : tree.Grammatical source.length
  distinct : ∀ n ∈ tree.nodes, n.kind = "call" → n.FieldsDistinct
  plain : PlainArguments source tree
  edits : l.edits = (checkTree source tree).edits
  fixed : fixed = l.edits.foldr Edit.splice source

variable {source fixed : Bytes} {tree : Node} {l : Layout} {n : Node} {above : List (Node × Nat)}

namespace Amendment

theorem chain (A : Amendment source tree l fixed) : Edit.Chain 0 source.length l.edits := by
  rw [A.edits]
  exact chain_checkTree A.grammatical

theorem replacement_pos (A : Amendment source tree l fixed) :
    ∀ e ∈ l.edits, 0 < (Bytes.ofString e.replacement).length := by
  intro e he
  rw [A.edits, checkTree_edits, gather, List.mem_filterMap] at he
  obtain ⟨c, -, hc⟩ := he
  obtain ⟨p, i, rest, selector, -, hp⟩ := editOn_eq_some (editAt_constant hc).2.2
  rcases hp.token with h | h <;> rw [h] <;> decide

theorem clear (A : Amendment source tree l fixed) (h : Survives source tree above n) :
    Edit.Clear l.edits n.start ∧ Edit.Clear l.edits n.stop := by
  obtain ⟨L, M, hedits, hL, hM⟩ := h.around A.grammatical
  have hn := h.chain A.grammatical
  rw [A.edits, hedits]
  refine ⟨Edit.clear_of_chains hL (hn.append hM), ?_⟩
  rw [← List.append_assoc]
  exact Edit.clear_of_chains (hL.append hn) hM

theorem offset_le_iff (A : Amendment source tree l fixed) {a b : Int} (ha : Edit.Clear l.edits a)
    (hb : Edit.Clear l.edits b) : l.offset a ≤ l.offset b ↔ a ≤ b :=
  A.chain.moved_le_iff A.replacement_pos ha hb

/-- The text of a node without edits is the text at its new place. -/
theorem text_eq (A : Amendment source tree l fixed) (h : Survives source tree above n)
    (hn : gather (editAt source) above n = []) {m : Node} (hm : m.extent = l.extent n.extent) :
    m.text fixed = n.text source := by
  obtain ⟨L, M, hedits, hL, hM⟩ := h.around A.grammatical
  have hforward := (h.grammatical A.grammatical).nested.forward
  rw [hn, List.nil_append] at hedits
  have hslice := Edit.slice_foldr_splice hL hM hforward
  rw [← hedits, ← A.edits, ← A.fixed] at hslice
  simp only [Node.text, Node.start, Node.stop, hm] at hslice ⊢
  exact congrArg Bytes.decodeLossy hslice

end Amendment

theorem amend_kind : (amend source l above n).kind = n.kind ∨
    n.kind = "call" ∧ (amend source l above n).kind = "identifier" := by
  cases hcor : correction? source ⟨n, above⟩ with
  | none => exact Or.inl (by rw [amend_plain hcor])
  | some e =>
    rw [amend_eq]
    split
    · exact Or.inl rfl
    · rename_i r _
      rcases replaced_cases l n (amends source l n above 0 n.children) r with ⟨-, -, h⟩ | h
      · exact Or.inr ⟨isCall_of_correction? hcor, by rw [h]; rfl⟩
      · exact Or.inl (by rw [h])

theorem amend_extent (h : correction? source ⟨n, above⟩ = none) :
    (amend source l above n).extent = l.extent n.extent := by
  rw [amend_plain h]

/-- A node ends in the corrected tree where it ended, or where the edit of the call that it was ended. -/
theorem Amendment.amend_stop (A : Amendment source tree l fixed) (h : Survives source tree above n) :
    ∃ o, (amend source l above n).stop = l.offset o ∧ Edit.Clear l.edits o ∧
      (o = n.stop ∨ n.start < o ∧ o ≤ n.stop) := by
  cases hcor : correction? source ⟨n, above⟩ with
  | none => exact ⟨n.stop, by rw [amend_plain hcor]; rfl, (A.clear h).2, Or.inl rfl⟩
  | some e =>
    have hng := h.grammatical A.grammatical
    obtain ⟨i, k, receiver, selector, hcut⟩ := cut_of_correction? hng.arranged hcor
    rw [hcut.amend_eq hcor]
    rcases replaced_cases l n (amends source l n above 0 n.children) ⟨e, i, k, receiver, selector⟩ with ⟨-, -, heq⟩ | heq
    · have he : e ∈ l.edits := by
        rw [A.edits]
        exact h.edit_mem A.grammatical hcor
      obtain ⟨hfront, hlt, hback⟩ := hcut.rows hng
      have h1 := hfront.le
      have h2 := hback.le
      refine ⟨e.stop, ?_, A.chain.clear_stop he, Or.inr (by omega)⟩
      rw [heq]
      exact A.chain.moved_stop he
    · exact ⟨n.stop, by rw [heq]; rfl, (A.clear h).2, Or.inl rfl⟩

section

variable {p selector : Node} {k : Nat}

/-- A sibling ends before the selector in the corrected tree if it did before. -/
theorem Amendment.stop_le_start_iff (A : Amendment source tree l fixed) (hp : Survives source tree above p)
    (hcor : correction? source ⟨p, above⟩ = none) (hk : p.children[k]? = some selector)
    (hselector : correction? source ⟨selector, (p, k) :: above⟩ = none) {j : Nat} {c : Node}
    (hj : p.children[j]? = some c) :
    (amend source l ((p, j) :: above) c).stop ≤ (amend source l ((p, k) :: above) selector).start ↔
      c.stop ≤ selector.start := by
  have hc : Survives source tree ((p, j) :: above) c := .child hp hj (kept_of_plain hcor j)
  have hs : Survives source tree ((p, k) :: above) selector := .child hp hk (kept_of_plain hcor k)
  have hpg := hp.grammatical A.grammatical
  have hforward := (hs.grammatical A.grammatical).nested.forward
  have hstart : (amend source l ((p, k) :: above) selector).start = l.offset selector.start := by
    rw [amend_plain hselector]
    rfl
  obtain ⟨o, hstop, hclear, ho⟩ := A.amend_stop hc
  rw [hstop, hstart, A.offset_le_iff hclear (A.clear hs).1]
  rcases ho with rfl | ho
  · exact Iff.rfl
  · -- the token lies within `c`, which stands as a whole on one side of the selector's start
    rcases Nat.lt_trichotomy j k with hlt | rfl | hlt
    · have := stop_le_start hpg.spanned hj hk hlt
      omega
    · obtain rfl : c = selector := by simpa [hj] using hk
      omega
    · have := stop_le_start hpg.spanned hk hj hlt
      omega

theorem isSend_getLast? (kinds : List String) :
    isSend kinds.getLast? = ((kinds.map fun kind => isSend (some kind)).getLast?).getD false := by
  rw [List.getLast?_map]
  cases kinds.getLast? <;> rfl

theorem Amendment.isSend_operator? (A : Amendment source tree l fixed) (hp : Survives source tree above p)
    (hcor : correction? source ⟨p, above⟩ = none) (hk : p.children[k]? = some selector)
    (hselector : correction? source ⟨selector, (p, k) :: above⟩ = none) :
    isSend (operator? (amend source l above p) (amend source l ((p, k) :: above) selector)) =
      isSend (operator? p selector) := by
  rw [operator?, operator?, isSend_getLast?, isSend_getLast?, List.map_map, List.map_map, amend_plain hcor,
    amends_filter_map 0 p.children]
  intro j c hj
  rw [Nat.zero_add, amend_named]
  refine ⟨?_, fun _ => ?_⟩
  · simp only [A.stop_le_start_iff hp hcor hk hselector hj]
  · rcases @amend_kind source l c ((p, j) :: above) with h | ⟨h1, h2⟩
    · simp [h]
    · simp [h1, h2, isSend]

theorem argumentCount_amend {a : Node} (h : correction? source ⟨a, above⟩ = none) :
    argumentCount (some (amend source l above a)) = argumentCount (some a) := by
  simp only [argumentCount, Node.namedChildren, amend_plain h, List.filter_filter]
  have hsame := @amends_filter_map source l a above Unit (fun c => c.kind != "comment" && c.named)
    (fun c => c.kind != "comment" && c.named) (fun _ => ()) (fun _ => ()) 0 a.children fun j c _ => by
      refine ⟨?_, fun _ => rfl⟩
      rw [Nat.zero_add, amend_named]
      rcases @amend_kind source l c ((a, j) :: above) with h | ⟨h1, h2⟩
      · rw [h]
      · simp [h1, h2]
  simpa using congrArg List.length hsame

end

/-- Where child number `i` stands once the token has taken the place of what is replaced. -/
def shift (source : Bytes) (p : Cursor) (i : Nat) : Nat :=
  match rewriting? source p with
  | none => i
  | some r => if i < r.first then i else i - (r.last - r.first)

/-- The way up in the corrected tree. -/
def mirror (source : Bytes) (l : Layout) : List (Node × Nat) → List (Node × Nat)
  | [] => []
  | (p, i) :: above => (amend source l above p, shift source ⟨p, above⟩ i) :: mirror source l above

/-- The counterpart of a node in the corrected tree. -/
def mirrored (source : Bytes) (l : Layout) (c : Cursor) : Cursor := ⟨amend source l c.above c.node, mirror source l c.above⟩

theorem shift_plain {p : Cursor} (h : correction? source p = none) (i : Nat) : shift source p i = i := by
  simp [shift, rewriting?, h]

theorem Cut.shift_eq {p receiver selector : Node} {e : Edit} {first last : Nat}
    (c : Cut source p e first last receiver selector) (h : correction? source ⟨p, above⟩ = some e) (i : Nat) :
    shift source ⟨p, above⟩ i = if i < first then i else i - (last - first) := by
  rw [shift, c.rewriting?_eq h]

theorem amends_findIdx? (p : Node) (name : String) (i : Nat) (ns : List Node) :
    (amends source l p above i ns).findIdx? (Node.hasField name) = ns.findIdx? (Node.hasField name) := by
  induction ns generalizing i with
  | nil => rfl
  | cons n ns ih =>
    have hfield : (amend source l ((p, i) :: above) n).hasField name = n.hasField name := by
      rw [Node.hasField, amend_field, Node.hasField]
    rw [amends, List.findIdx?_cons, List.findIdx?_cons, hfield, ih]

theorem childIndex?_plain (h : correction? source ⟨n, above⟩ = none) (name : String) :
    (amend source l above n).childIndex? name = n.childIndex? name := by
  rw [amend_plain h, Node.childIndex?, amends_findIdx?, Node.childIndex?]

theorem child?_plain (h : correction? source ⟨n, above⟩ = none) (name : String) :
    (amend source l above n).child? name =
      (inField? name ⟨n, above⟩).map fun c => amend source l c.above c.node := by
  rw [Node.child?_eq_getElem?, childIndex?_plain h, amend_plain h, inField?]
  cases n.childIndex? name with
  | none => rfl
  | some i =>
    simp only [Option.bind_some, amends_getElem?, childAt?, Nat.zero_add, Option.map_map]
    rfl

section

variable {p : Node} {i : Nat}

/-- A node that keeps a child in its correction stays a node of its kind. -/
theorem amend_of_kept (hp : p.Arranged) (hi : i < p.children.length) (hk : Kept source ⟨p, above⟩ i) :
    (amend source l above p).kind = p.kind := by
  cases hcor : correction? source ⟨p, above⟩ with
  | none => rw [amend_plain hcor]
  | some e =>
    obtain ⟨first, last, receiver, selector, hcut⟩ := cut_of_correction? hp hcor
    rw [hcut.amend_eq hcor, replaced_of_kept l p (by rwa [amends_length]) ((hcut.kept_iff hcor).1 hk)]

theorem Survives.parent_kind (h : Survives source tree ((p, i) :: above) n) (hg : tree.Grammatical source.length) :
    (amend source l above p).kind = p.kind := by
  cases h with
  | child hp hc hk =>
    exact amend_of_kept (hp.grammatical hg).arranged (List.getElem?_eq_some_iff.1 hc).1 hk

/-- A corrected call has the token for its method and no receiver. -/
theorem Cut.childIndex?_amend {e : Edit} {first last : Nat} {receiver selector : Node}
    (c : Cut source p e first last receiver selector) (h : correction? source ⟨p, above⟩ = some e)
    (hd : p.FieldsDistinct) (hi : i < p.children.length) (hk : i < first ∨ last < i) :
    (amend source l above p).childIndex? "receiver" = none ∧ (amend source l above p).childIndex? "method" = some first := by
  obtain ⟨_, -, hreceiver, hnone⟩ := Node.childIndex?_eq_some_iff.1 c.corrects.receiver
  obtain ⟨_, -, hmethod, hnone'⟩ := Node.childIndex?_eq_some_iff.1 c.methodAt
  have hbefore := c.before
  have hlen : (p.children.take first).length = first := length_take_of_getElem? c.receiverAt
  have hfront : ∀ name, (∀ j < first, ∀ b, p.children[j]? = some b → b.hasField name = false) →
      (p.children.take first).findIdx? (Node.hasField name) = none := by
    intro name hname
    rw [List.findIdx?_eq_none_iff]
    intro b hb
    obtain ⟨j, hj⟩ := List.getElem?_of_mem hb
    obtain ⟨hlt, hj⟩ := getElem?_take_eq_some hj
    exact hname j hlt b hj
  have hback : (p.children.drop (last + 1)).findIdx? (Node.hasField "receiver") = none := by
    rw [List.findIdx?_eq_none_iff]
    intro b hb
    obtain ⟨j, hj⟩ := List.getElem?_of_mem hb
    rw [List.getElem?_drop] at hj
    rw [← Bool.not_eq_true]
    intro hfield
    obtain ⟨r, hr, hrf, -⟩ := Node.childIndex?_eq_some_iff.1 c.corrects.receiver
    have := hd.index_eq hr hj hrf hfield
    omega
  rw [c.amend_eq h, replaced_of_kept l p (by rwa [amends_length]) hk]
  simp only [Node.childIndex?, amends_take, amends_drop, List.findIdx?_append, List.findIdx?_cons, amends_findIdx?,
    amends_length, hlen, hback, hfront "receiver" hnone, hfront "method" fun j hj => hnone' j (by omega)]
  simp [Node.hasField, token]

/-- A node that survives fills the same field of its parent. -/
theorem Amendment.fills_mirrored (A : Amendment source tree l fixed) (h : Survives source tree ((p, i) :: above) n)
    (name : String) (hname : correction? source ⟨p, above⟩ = none ∨ name = "receiver" ∨ name = "method") :
    fills name (mirrored source l ⟨n, (p, i) :: above⟩) = fills name ⟨n, (p, i) :: above⟩ := by
  cases h with
  | child hp hc hk =>
    simp only [fills, mirrored, mirror]
    cases hcor : correction? source ⟨p, above⟩ with
    | none => rw [childIndex?_plain hcor, shift_plain hcor]
    | some e =>
      obtain ⟨first, last, receiver, selector, hcut⟩ := cut_of_correction? (hp.grammatical A.grammatical).arranged hcor
      have hbefore := hcut.before
      have hkept := (hcut.kept_iff hcor).1 hk
      have hd := A.distinct p (hp.nodes p (Node.self_mem_nodes p)) hcut.corrects.isCall
      obtain ⟨hreceiver, hmethod⟩ := hcut.childIndex?_amend (l := l) hcor hd (List.getElem?_eq_some_iff.1 hc).1 hkept
      rcases hname with h | rfl | rfl
      · simp [hcor] at h
      · rw [hreceiver, hcut.corrects.receiver]
        simp
        omega
      · rw [hmethod, hcut.methodAt, hcut.shift_eq hcor]
        split <;> simp <;> omega

theorem Amendment.standsFree_mirrored (A : Amendment source tree l fixed) (h : Survives source tree above n) :
    standsFree (mirrored source l ⟨n, above⟩) = standsFree ⟨n, above⟩ := by
  cases above with
  | nil => rfl
  | cons x above =>
    obtain ⟨p, i⟩ := x
    have hkind : (amend source l above p).kind = p.kind := h.parent_kind A.grammatical
    simp only [standsFree, parent?, mirrored, mirror]
    by_cases hcall : p.kind = "call"
    · have hmethod := A.fills_mirrored h "method" (Or.inr (Or.inr rfl))
      simp only [mirrored, mirror] at hmethod
      simp [isAssignment, hkind, hcall, hmethod]
    · have hplain : correction? source ⟨p, above⟩ = none := correction?_of_kind hcall
      have hfills : ∀ name, fills name (mirrored source l ⟨n, (p, i) :: above⟩) = fills name ⟨n, (p, i) :: above⟩ :=
        fun name => A.fills_mirrored h name (Or.inl hplain)
      simp only [mirrored, mirror] at hfills
      have hscope := child?_eq_inField? "scope" ⟨p, above⟩
      simp only [isAssignment, hkind, hfills, child?_plain hplain, hscope, Option.isNone_map]

theorem Amendment.isAssigned_mirrored (A : Amendment source tree l fixed) (h : Survives source tree above n) :
    isAssigned (mirrored source l ⟨n, above⟩) = isAssigned ⟨n, above⟩ := by
  cases above with
  | nil => rfl
  | cons x above =>
    obtain ⟨p, i⟩ := x
    have hkind : (amend source l above p).kind = p.kind := h.parent_kind A.grammatical
    simp only [isAssigned, parent?, mirrored, mirror]
    by_cases hcall : p.kind = "call"
    · simp [isAssignment, hkind, hcall]
    · have hfills := A.fills_mirrored h "left" (Or.inl (correction?_of_kind hcall))
      simp only [mirrored, mirror] at hfills
      simp only [isAssignment, hkind, hfills]

theorem Amendment.referenceAt_mirrored (A : Amendment source tree l fixed) (h : Survives source tree above n) :
    referenceAt (mirrored source l ⟨n, above⟩) = mirrored source l (referenceAt ⟨n, above⟩) := by
  cases above with
  | nil => rfl
  | cons x above =>
    obtain ⟨p, i⟩ := x
    have hkind : (amend source l above p).kind = p.kind := h.parent_kind A.grammatical
    simp only [referenceAt, parent?, mirrored, mirror, hkind]
    by_cases hscope : p.kind = "scope_resolution"
    · have hplain : correction? source ⟨p, above⟩ = none := correction?_of_kind (by simp [hscope])
      have hfills := A.fills_mirrored h "name" (Or.inl hplain)
      simp only [mirrored, mirror] at hfills
      rw [hfills]
      split <;> rfl
    · simp [hscope, mirror]

end

theorem Survives.referenceAt (h : Survives source tree above n) :
    Survives source tree (referenceAt ⟨n, above⟩).above (referenceAt ⟨n, above⟩).node := by
  cases h with
  | root => exact .root
  | child hp hc hk =>
    simp only [Offense.referenceAt, parent?]
    split
    · exact hp
    · exact .child hp hc hk

/-- A reference is no call, so that it is never corrected itself. -/
theorem correction?_referenceAt (hn : n.kind = "constant") : correction? source (referenceAt ⟨n, above⟩) = none := by
  have hself : correction? source ⟨n, above⟩ = none := correction?_of_kind (by simp [hn])
  cases above with
  | nil => exact hself
  | cons x above =>
    obtain ⟨p, i⟩ := x
    simp only [referenceAt, parent?]
    split
    · rename_i h
      simp only [Bool.and_eq_true, beq_iff_eq] at h
      exact correction?_of_kind (by simp [h.1])
    · exact hself

/-- What a verdict and its range depend on is the same for both calls, but that the range is moved. -/
structure Call.Moved (l : Layout) (call call' : Call) : Prop where
  method : call'.method = call.method
  count : argumentCount call'.arguments = argumentCount call.arguments
  block : call'.block.isSome = call.block.isSome
  extent : (call'.arguments.getD call'.selector).extent = l.extent (call.arguments.getD call.selector).extent

section

variable {p selector : Node} {k : Nat}

/-- A selector is never a corrected call. -/
theorem correction?_selector (hp : p.Arranged) (hcall : p.kind = "call") (hs : p.child? "method" = some selector) :
    correction? source ⟨selector, (p, k) :: above⟩ = none := by
  by_cases hlist : selector.kind = "argument_list"
  · exact correction?_of_kind (by simp [hlist])
  · exact correction?_leaf (hp.selectorLeaf hcall selector hs hlist)

theorem Amendment.callWith_moved (A : Amendment source tree l fixed) (hp : Survives source tree above p)
    (hcor : correction? source ⟨p, above⟩ = none) (hcall : p.kind = "call") (hk : p.childIndex? "method" = some k)
    (hs : p.children[k]? = some selector) :
    Call.Moved l (callWith source ⟨p, above⟩ selector)
      (callWith fixed (mirrored source l ⟨p, above⟩) (amend source l ((p, k) :: above) selector)) := by
  have hpa := (hp.grammatical A.grammatical).arranged
  have hmethod : p.child? "method" = some selector := Node.child?_of_childIndex? hk hs
  have hplain : correction? source ⟨selector, (p, k) :: above⟩ = none := correction?_selector hpa hcall hmethod
  have hsurvives : Survives source tree ((p, k) :: above) selector := .child hp hs (kept_of_plain hcor k)
  have hkind : (amend source l ((p, k) :: above) selector).kind = selector.kind := by rw [amend_plain hplain]
  have hassigned := A.isAssigned_mirrored hp
  have harguments : (amend source l above p).child? "arguments" =
      (inField? "arguments" ⟨p, above⟩).map fun c => amend source l c.above c.node := child?_plain hcor _
  have hblock : (amend source l above p).child? "block" =
      (inField? "block" ⟨p, above⟩).map fun c => amend source l c.above c.node := child?_plain hcor _
  have hblock' := child?_eq_inField? "block" ⟨p, above⟩
  have harguments' := child?_eq_inField? "arguments" ⟨p, above⟩
  by_cases hlist : selector.kind = "argument_list"
  · refine ⟨?_, ?_, ?_, ?_⟩
    · simp [callWith, hkind, hlist, hassigned]
    · simpa [callWith, hkind, hlist] using argumentCount_amend hplain
    · simp [callWith, mirrored, hblock, hblock']
    · simpa [callWith, hkind, hlist] using amend_extent hplain
  · have htext : (amend source l ((p, k) :: above) selector).text fixed = selector.text source :=
      A.text_eq hsurvives (gather_selector atTargets_editAt hcall hk (hpa.selectorLeaf hcall selector hmethod hlist))
        (amend_extent hplain)
    have hnone : ∀ a, inField? "arguments" ⟨p, above⟩ = some a → correction? source a = none := by
      intro a ha
      refine A.plain ⟨p, above⟩ (hp.cursors _ ?_) hcall a ha
      rw [preorder_eq]
      exact List.mem_cons_self
    refine ⟨?_, ?_, ?_, ?_⟩
    · simp [callWith, hkind, hlist, hassigned, htext]
    · cases ha : inField? "arguments" ⟨p, above⟩ with
      | none => simp [callWith, mirrored, hkind, hlist, harguments, harguments', ha]
      | some a => simpa [callWith, mirrored, hkind, hlist, harguments, harguments', ha] using argumentCount_amend (hnone a ha)
    · simp [callWith, mirrored, hblock, hblock']
    · cases ha : inField? "arguments" ⟨p, above⟩ with
      | none => simpa [callWith, mirrored, hkind, hlist, harguments, harguments', ha] using amend_extent hplain
      | some a => simpa [callWith, mirrored, hkind, hlist, harguments, harguments', ha] using amend_extent (hnone a ha)

/-- The call on a reference that survives is found again. -/
theorem Amendment.callOn_moved (A : Amendment source tree l fixed) (h : Survives source tree above n) :
    Option.Rel (Call.Moved l) (callOn source ⟨n, above⟩) (callOn fixed (mirrored source l ⟨n, above⟩)) := by
  cases h with
  | root => exact .none
  | @child p n i above hp hc hk =>
    have hsurvives : Survives source tree ((p, i) :: above) n := .child hp hc hk
    have hkind : (amend source l above p).kind = p.kind := hsurvives.parent_kind A.grammatical
    have hfills := A.fills_mirrored hsurvives "receiver" (Or.inr (Or.inl rfl))
    simp only [mirrored, mirror] at hfills
    simp only [callOn, parent?, mirrored, mirror, hkind, hfills]
    by_cases hcond : (p.kind == "call" && fills "receiver" ⟨n, (p, i) :: above⟩) = true
    · rw [if_pos hcond, if_pos hcond]
      simp only [Bool.and_eq_true, beq_iff_eq, fills_cons] at hcond
      obtain ⟨hcall, hreceiver⟩ := hcond
      have hpa := (hp.grammatical A.grammatical).arranged
      -- the receiver of a corrected call does not survive
      have hcor : correction? source ⟨p, above⟩ = none := by
        rw [← carried?_receiver hreceiver]
        exact hk.not_carried hpa
      have hmethod : p.child? "method" = (inField? "method" ⟨p, above⟩).map (·.node) := child?_eq_inField? _ ⟨p, above⟩
      rw [child?_plain hcor, hmethod]
      cases hs : inField? "method" ⟨p, above⟩ with
      | none => exact .none
      | some s =>
        rw [hs] at hmethod
        obtain ⟨k, selector, hindex, hat, rfl⟩ := of_inField? hs
        have hplain : correction? source ⟨selector, (p, k) :: above⟩ = none := correction?_selector hpa hcall hmethod
        simp only [Option.map_some, A.isSend_operator? hp hcor hat hplain]
        split
        · exact .some (A.callWith_moved hp hcor hcall hindex hat)
        · exact .none
    · rw [if_neg hcond, if_neg hcond]
      exact .none

end

end TimeLint.Offense
