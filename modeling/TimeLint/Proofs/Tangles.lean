import TimeLint.Proofs.Acceptance
import TimeLint.Proofs.CallReading
import TimeLint.Proofs.Placement

/-! Trees of which nothing is known but that their extents are nested. The edits of such a tree can be made
unless calls are tangled: a selector ends before its receiver starts, or between the receiver and the
selector of a corrected call there is another corrected call. -/

namespace TimeLint

open Cursor

variable {source : Bytes} {size : Nat}

/-- What is visited from a node lies in its extent. -/
theorem Node.Spanned.visited {n : Node} {above : List (Node × Nat)} {c : Cursor} (h : n.Spanned size)
    (hc : c ∈ preorder above n) : c.node.Spanned size ∧ n.start ≤ c.node.start ∧ c.node.stop ≤ n.stop := by
  induction n using Node.induct generalizing above with
  | step n ih =>
    rcases mem_preorder.1 hc with rfl | ⟨i, m, hi, hm⟩
    · exact ⟨h, Int.le_refl _, Int.le_refl _⟩
    · have hmem := List.mem_of_getElem? hi
      obtain ⟨h1, h2, h3⟩ := ih m hmem (h.child hmem) hm
      have := h.nested.inside m hmem
      exact ⟨h1, by omega, by omega⟩

theorem Node.Grammatical.visited {n : Node} {above : List (Node × Nat)} {c : Cursor} (h : n.Grammatical size)
    (hc : c ∈ preorder above n) : c.node.Grammatical size :=
  fun m hm => h m (Node.mem_nodes_trans (node_mem_nodes hc) hm)

/-- Cursors below different children cover different stretches of the source. -/
theorem Node.Spanned.beside {n : Node} {above : List (Node × Nat)} {a b : Cursor} (h : n.Spanned size)
    (hab : Beside above n a b) : a.node.stop ≤ b.node.start := by
  obtain ⟨p, hp, i, j, x, y, hij, hi, hj, ha, hb⟩ := hab
  have hs := (h.visited hp).1
  have hxy := Offense.stop_le_start hs hi hj hij
  have hx := ((hs.child (List.mem_of_getElem? hi)).visited ha).2
  have hy := ((hs.child (List.mem_of_getElem? hj)).visited hb).2
  omega

namespace Offense

/-- The selector of the call at `k` ends before its receiver starts, and the call asks for an edit. -/
def Reversed (source : Bytes) (k : Cursor) : Prop := ∃ e, Asks source k e ∧ e.stop < e.start

/-- Both calls ask for an edit, and the second stands in the first between receiver and selector, or in one of
the two. -/
def Encloses (source : Bytes) (k k' : Cursor) : Prop :=
  (∃ e, Asks source k e) ∧ (∃ e, Asks source k' e) ∧
    ∃ first last j c, k.node.childIndex? "receiver" = some first ∧ k.node.childIndex? "method" = some last ∧
      first ≤ j ∧ j ≤ last ∧ k.node.children[j]? = some c ∧ k' ∈ preorder ((k.node, j) :: k.above) c

/-- The edits that the calls of the tree ask for get in each other's way. -/
def Tangled (source : Bytes) (tree : Node) : Prop :=
  ∃ k ∈ preorder [] tree, Reversed source k ∨ ∃ k', Encloses source k k'

/-- Where the edit of a call stands, and how much it covers and writes. -/
structure Stretch (p : Node) (e : Edit) (first last : Nat) (receiver selector : Node) : Prop where
  receiverIn : p.childIndex? "receiver" = some first
  methodIn : p.childIndex? "method" = some last
  receiverAt : p.children[first]? = some receiver
  selectorAt : p.children[last]? = some selector
  start : e.start = receiver.start
  stop : e.stop = selector.stop
  receiverCovers : receiver.start + 7 ≤ receiver.stop
  selectorCovers : selector.start + 6 ≤ selector.stop
  written : (Bytes.ofString e.replacement).length = 11

theorem StandsForTarget.covers {n : Node} (h : StandsForTarget source n) (hs : n.Spanned size) : n.start + 7 ≤ n.stop := by
  have hseven : "Timecop".length = 7 := rfl
  cases h with
  | constant _ text =>
    have := hs.nested.length_text_le source
    rw [text] at this
    omega
  | rooted _ _ child _ text =>
    obtain ⟨i, -, hi⟩ := Node.child?_eq_some child
    have hmem := List.mem_of_getElem? hi
    have hname := (hs.child hmem).nested.length_text_le source
    have := hs.nested.inside _ hmem
    rw [text] at hname
    omega

theorem Sends.stretch {k : Cursor} {receiver method : Node} {name : String} (h : Sends source k receiver method name)
    (hname : name.length = 6) (token : String) (htoken : (Bytes.ofString token).length = 11) (hs : k.node.Spanned size) :
    ∃ first last, Stretch k.node ⟨receiver.start, method.stop, token⟩ first last receiver method := by
  obtain ⟨first, hfirst, hr⟩ := Node.child?_eq_some h.hasReceiver
  obtain ⟨last, hlast, hm⟩ := Node.child?_eq_some h.hasMethod
  refine ⟨first, last, hfirst, hlast, hr, hm, rfl, rfl, h.toTarget.covers (hs.child (List.mem_of_getElem? hr)), ?_, htoken⟩
  have hle := (hs.child (List.mem_of_getElem? hm)).nested.length_text_le source
  rw [h.text] at hle
  omega

theorem Asks.stretch {k : Cursor} {e : Edit} (h : Asks source k e) (hs : k.node.Spanned size) :
    ∃ first last receiver selector, Stretch k.node e first last receiver selector := by
  cases h with
  | freeze sends _ =>
    obtain ⟨first, last, hst⟩ := sends.stretch rfl "freeze_time" rfl hs
    exact ⟨first, last, _, _, hst⟩
  | back sends _ =>
    obtain ⟨first, last, hst⟩ := sends.stretch rfl "travel_back" rfl hs
    exact ⟨first, last, _, _, hst⟩

section

variable {p receiver selector : Node} {e : Edit} {first last : Nat}

/-- The edit of a call lies within the call. -/
theorem Stretch.inside (h : Stretch p e first last receiver selector) (hs : p.Spanned size) :
    p.start ≤ e.start ∧ e.start < p.stop ∧ p.start < e.stop ∧ e.stop ≤ p.stop := by
  have hr := hs.nested.inside receiver (List.mem_of_getElem? h.receiverAt)
  have hm := hs.nested.inside selector (List.mem_of_getElem? h.selectorAt)
  have h1 := h.receiverCovers
  have h2 := h.selectorCovers
  rw [h.start, h.stop]
  omega

/-- A child that is not between receiver and selector lies outside of the edit. -/
theorem Stretch.outside (h : Stretch p e first last receiver selector) (hs : p.Spanned size) (hle : e.start ≤ e.stop)
    {j : Nat} {c : Node} (hj : p.children[j]? = some c) (hout : ¬ (first ≤ j ∧ j ≤ last)) :
    c.stop ≤ e.start ∨ e.stop ≤ c.start := by
  have hne : first ≠ last := fun heq => childIndex?_ne h.receiverIn (by decide) (heq ▸ h.methodIn)
  rw [h.start, h.stop] at *
  rcases Nat.lt_or_gt_of_ne hne with hlt | hlt
  · -- the receiver comes first
    by_cases hb : j < first
    · exact Or.inl (stop_le_start hs hj h.receiverAt hb)
    · exact Or.inr (stop_le_start hs h.selectorAt hj (by omega))
  · -- the selector comes first, and then nothing is between the two
    have hempty := stop_le_start hs h.selectorAt h.receiverAt hlt
    rcases Nat.lt_trichotomy j last with hb | rfl | hb
    · have := stop_le_start hs hj h.selectorAt hb
      have := h.selectorCovers
      exact Or.inl (by omega)
    · obtain rfl : selector = c := by simpa [h.selectorAt] using hj
      exact Or.inl hempty
    · exact Or.inr (stop_le_start hs h.selectorAt hj hb)

/-- A child between receiver and selector lies in the edit. -/
theorem Stretch.between (h : Stretch p e first last receiver selector) (hs : p.Spanned size) {j : Nat} {c : Node}
    (hj : p.children[j]? = some c) (h1 : first ≤ j) (h2 : j ≤ last) : e.start ≤ c.start ∧ c.stop ≤ e.stop := by
  rw [h.start, h.stop]
  constructor
  · rcases Nat.lt_or_eq_of_le h1 with hlt | rfl
    · have := stop_le_start hs h.receiverAt hj hlt
      have := h.receiverCovers
      omega
    · obtain rfl : receiver = c := by simpa [h.receiverAt] using hj
      exact Int.le_refl _
  · rcases Nat.lt_or_eq_of_le h2 with hlt | rfl
    · have := stop_le_start hs hj h.selectorAt hlt
      have := h.selectorCovers
      omega
    · obtain rfl : selector = c := by simpa [h.selectorAt] using hj
      exact Int.le_refl _

end

section

variable {tree : Node} {k k' : Cursor} {e e' : Edit}

/-- Edits of a call and of one below it that it does not enclose are separate. -/
theorem separate_of_under (hs : k.node.Spanned size) (he : Asks source k e) (he' : Asks source k' e')
    (hup : e.start ≤ e.stop) (hunder : Under k k') (hno : ¬ Encloses source k k') : Edit.Separate e e' := by
  obtain ⟨j, c, hj, hk'⟩ := hunder
  obtain ⟨first, last, receiver, selector, hst⟩ := he.stretch hs
  obtain ⟨hs', hin⟩ := (hs.child (List.mem_of_getElem? hj)).visited hk'
  obtain ⟨first', last', receiver', selector', hst'⟩ := he'.stretch hs'
  have hin' := hst'.inside hs'
  have hout : ¬ (first ≤ j ∧ j ≤ last) := fun h =>
    hno ⟨⟨e, he⟩, ⟨e', he'⟩, first, last, j, c, hst.receiverIn, hst.methodIn, h.1, h.2, hj, hk'⟩
  rcases hst.outside hs hup hj hout with h | h
  · exact Or.inr (by omega)
  · exact Or.inl (by omega)

/-- The edit of an enclosed call lies in the edit of the call around it. -/
theorem not_separate_of_encloses (hs : k.node.Spanned size) (he : Asks source k e) (he' : Asks source k' e')
    (h : Encloses source k k') : ¬ Edit.Separate e e' := by
  obtain ⟨-, -, first, last, j, c, hfirst, hlast, h1, h2, hj, hk'⟩ := h
  obtain ⟨first₀, last₀, receiver, selector, hst⟩ := he.stretch hs
  obtain rfl : first₀ = first := by simpa [hst.receiverIn] using hfirst
  obtain rfl : last₀ = last := by simpa [hst.methodIn] using hlast
  obtain ⟨hs', hin⟩ := (hs.child (List.mem_of_getElem? hj)).visited hk'
  obtain ⟨first', last', receiver', selector', hst'⟩ := he'.stretch hs'
  have hin' := hst'.inside hs'
  have hbetween := hst.between hs hj h1 h2
  unfold Edit.Separate
  omega

theorem Encloses.under (h : Encloses source k k') : Under k k' := by
  obtain ⟨-, -, first, last, j, c, -, -, -, -, hj, hk'⟩ := h
  exact ⟨j, c, hj, hk'⟩

/-- The edits of two different calls, neither of which encloses the other, are separate. -/
theorem separate_of_ne (h : tree.Spanned source.length) (hno : ¬ Tangled source tree) (hk : k ∈ preorder [] tree)
    (hk' : k' ∈ preorder [] tree) (hne : k ≠ k') (he : Asks source k e) (he' : Asks source k' e') :
    Edit.Separate e e' := by
  have hupright : ∀ {k e}, k ∈ preorder [] tree → Asks source k e → e.start ≤ e.stop := by
    intro k e hk he
    by_contra hlt
    exact hno ⟨k, hk, Or.inl ⟨e, he, by omega⟩⟩
  have hfree : ∀ {k k'}, k ∈ preorder [] tree → ¬ Encloses source k k' := fun hk henc =>
    hno ⟨_, hk, Or.inr ⟨_, henc⟩⟩
  obtain ⟨hs, -⟩ := h.visited hk
  obtain ⟨hs', -⟩ := h.visited hk'
  obtain ⟨_, _, _, _, hst⟩ := he.stretch hs
  obtain ⟨_, _, _, _, hst'⟩ := he'.stretch hs'
  have hin := hst.inside hs
  have hin' := hst'.inside hs'
  rcases compare_preorder hk hk' with heq | hunder | hunder | hbeside | hbeside
  · exact absurd heq hne
  · exact separate_of_under hs he he' (hupright hk he) hunder (hfree hk)
  · exact (separate_of_under hs' he' he (hupright hk' he') hunder (hfree hk')).symm
  · have := h.beside hbeside
    exact Or.inl (by omega)
  · have := h.beside hbeside
    exact Or.inr (by omega)

/-- The edits of a tree with nested extents can be made exactly if its calls are not tangled. -/
theorem accepted_iff_not_tangled (h : tree.Spanned source.length) :
    Edit.Accepted source.length (checkTree source tree).edits ↔ ¬ Tangled source tree := by
  have hperm := edits_perm_corrections source tree
  constructor
  · rintro hacc ⟨k, hk, hbad⟩
    obtain ⟨hfit, hsep⟩ := hacc.perm hperm
    rcases hbad with ⟨e, he, hlt⟩ | ⟨k', henc⟩
    · have hmem := List.mem_filterMap.2 ⟨k, hk, correction?_eq_some_iff.2 he⟩
      have := Edit.fits_iff.1 (hfit e hmem)
      omega
    · obtain ⟨e, he⟩ := henc.1
      obtain ⟨e', he'⟩ := henc.2.1
      have hk' : k' ∈ preorder [] tree := preorder_trans hk (mem_preorder.2 (Or.inr henc.under))
      have hne : k ≠ k' := by
        rintro rfl
        exact not_under_self k henc.under
      have hsymm : Std.Symm fun a b => ∀ e, correction? source a = some e → ∀ e', correction? source b = some e' →
          Edit.Separate e e' := ⟨fun a b hab e' he' e he => (hab e he e' he').symm⟩
      have hpair := (List.pairwise_filterMap.1 hsep).forall hk hk' hne
      exact not_separate_of_encloses (h.visited hk).1 he he' henc
        (hpair e (correction?_eq_some_iff.2 he) e' (correction?_eq_some_iff.2 he'))
  · intro hno
    refine Edit.Accepted.perm hperm.symm ⟨fun e hmem => ?_, ?_⟩
    · obtain ⟨k, hk, he⟩ := List.mem_filterMap.1 hmem
      rw [correction?_eq_some_iff] at he
      obtain ⟨hs, -⟩ := h.visited hk
      obtain ⟨_, _, _, _, hst⟩ := he.stretch hs
      have hin := hst.inside hs
      have hnonneg := hs.nested.nonneg
      have hbounded := hs.nested.bounded
      have hle : ¬ e.stop < e.start := fun hlt => hno ⟨k, hk, Or.inl ⟨e, he, hlt⟩⟩
      rw [Edit.fits_iff]
      omega
    · rw [List.pairwise_filterMap]
      refine (nodup_preorder [] tree).pairwise_of_forall_ne fun k hk k' hk' hne e he e' he' => ?_
      exact separate_of_ne h hno hk hk' hne (correction?_eq_some_iff.1 he) (correction?_eq_some_iff.1 he')

end

end Offense

end TimeLint
