import TimeLint.Proofs.Survivors
import TimeLint.Proofs.Tangles

/-! What corrections leave of a text. The arguments and the block of a corrected call are no part of its edit, and
no edit of another call covers them, for a corrected call never stands in the edit of another one. So every
edit lies before such a child, behind it or inside it, and the child's text is found again with the edits
inside it made. -/

namespace TimeLint

namespace Edit

/-- The edits that lie between two offsets, at offsets that count from the first. -/
def within (a b : Int) (es : List Edit) : List Edit := (es.filter fun e => a ≤ e.start && e.stop ≤ b).map (shift (-a))

theorem Chain.within_eq {L G M : List Edit} {lo a b hi : Int} (hL : Chain lo a L) (hG : Chain a b G) (hM : Chain b hi M) :
    within a b (L ++ (G ++ M)) = G.map (shift (-a)) := by
  have hbefore : L.filter (fun e => a ≤ e.start && e.stop ≤ b) = [] := by
    rw [List.filter_eq_nil_iff]
    intro e he
    have := hL.mem e he
    simp
    omega
  have hinside : G.filter (fun e => a ≤ e.start && e.stop ≤ b) = G := by
    rw [List.filter_eq_self]
    intro e he
    have := hG.mem e he
    simp
    omega
  have hbehind : M.filter (fun e => a ≤ e.start && e.stop ≤ b) = [] := by
    rw [List.filter_eq_nil_iff]
    intro e he
    have := hM.mem e he
    simp
    omega
  rw [within, List.filter_append, List.filter_append, hbefore, hinside, hbehind, List.nil_append, List.append_nil]

end Edit

namespace Offense

open Cursor

variable {source : Bytes} {tree : Node} {n : Node} {above : List (Node × Nat)}

theorem not_tangled (hg : tree.Grammatical source.length) : ¬ Tangled source tree := by
  rw [← accepted_iff_not_tangled hg.spanned, ← Edit.apply_eq_ok_iff]
  exact ⟨_, Edit.apply_of_chain (chain_checkTree hg)⟩

/-- What holds a corrected call is no part of the edit of another call. -/
theorem survives_of_asks (hg : tree.Grammatical source.length) {k : Cursor} {e : Edit} (he : Asks source k e)
    (hn : ⟨n, above⟩ ∈ preorder [] tree) (hk : k ∈ preorder above n) : Survives source tree above n := by
  induction above generalizing n with
  | nil =>
    rcases cases_mem_preorder hn with h | ⟨p, i, rest, h, -, -⟩
    · obtain rfl : n = tree := by simpa using h
      exact .root
    · simp at h
  | cons x above ih =>
    obtain ⟨p, i⟩ := x
    obtain ⟨hp, hi⟩ := parent_mem_preorder hn
    have hparent := ih hp (mem_preorder_of_child hi hk)
    refine .child hparent hi ?_
    cases hcor : correction? source ⟨p, above⟩ with
    | none => exact kept_of_plain hcor i
    | some e' =>
      obtain ⟨first, last, receiver, selector, hcut⟩ := cut_of_correction? (hparent.grammatical hg).arranged hcor
      rw [hcut.kept_iff hcor]
      by_contra hin
      refine not_tangled hg ⟨⟨p, above⟩, hp, Or.inr ⟨k, ⟨e', correction?_eq_some_iff.1 hcor⟩, ⟨e, he⟩, first, last, i, n,
        hcut.corrects.receiver, hcut.methodAt, ?_, ?_, hi, hk⟩⟩
      all_goals omega

/-- An edit made below a surviving node is asked for by a call that stands there. -/
theorem Survives.asked_below (h : Survives source tree above n) (hg : tree.Grammatical source.length) {c : Cursor} {e : Edit}
    (hc : c ∈ preorder above n) (he : editAt source c = some e) : ∃ k ∈ preorder above n, Asks source k e := by
  have hasked : ∀ k, subject? k = some c → Asks source k e := fun k hk => by
    rw [← correction?_eq_some_iff, correction?, hk]
    exact he
  rcases cases_mem_preorder hc with rfl | ⟨p, i, rest, hrest, hp, hi⟩
  · rw [h.editAt_eq hg] at he
    cases he
  · obtain ⟨m, up⟩ := c
    obtain rfl : up = (p, i) :: rest := hrest
    have hattached := attached_of_mem_preorder (h.cursors _ hp)
    rcases subject_of_editAt hattached hi he with ⟨-, hs⟩ | ⟨-, -, q, j, up, rfl, hreceiver, hs⟩
    · exact ⟨_, hp, hasked _ hs⟩
    · rcases cases_mem_preorder hp with heq | ⟨q', j', up', heq, hq, -⟩
      · -- the node itself would be the receiver of a corrected call
        obtain ⟨rfl, rfl⟩ : p = n ∧ (q, j) :: up = above := by simpa using heq
        have hcarried := h.not_carried hg
        rw [carried?_receiver hreceiver, correction?, hs, Option.bind_some, he] at hcarried
        cases hcarried
      · obtain ⟨⟨rfl, rfl⟩, rfl⟩ : (q = q' ∧ j = j') ∧ up = up' := by simpa using heq
        exact ⟨_, hq, hasked _ hs⟩

/-- No edit covers an end of a surviving node. -/
theorem Survives.edit_beside (h : Survives source tree above n) (hg : tree.Grammatical source.length) {e : Edit}
    (he : e ∈ (checkTree source tree).edits) :
    e.stop ≤ n.start ∨ n.stop ≤ e.start ∨ (n.start ≤ e.start ∧ e.stop ≤ n.stop) := by
  obtain ⟨L, M, hedits, hL, hM⟩ := h.around hg
  rw [hedits] at he
  rcases List.mem_append.1 he with he | he
  · exact Or.inl (hL.mem e he).2.2
  · rcases List.mem_append.1 he with he | he
    · have hin := (h.chain hg).mem e he
      exact Or.inr (Or.inr ⟨hin.1, hin.2.2⟩)
    · exact Or.inr (Or.inl (hM.mem e he).1)

/-- A node without calls that ask for an edit has none. -/
theorem Survives.gather_eq_nil (h : Survives source tree above n) (hg : tree.Grammatical source.length)
    (hno : ∀ k ∈ preorder above n, ∀ e, ¬ Asks source k e) : gather (editAt source) above n = [] := by
  rw [gather, List.filterMap_eq_nil_iff]
  intro c hc
  by_contra hne
  obtain ⟨e, he⟩ := Option.ne_none_iff_exists'.1 hne
  obtain ⟨k, hk, hasks⟩ := h.asked_below hg hc he
  exact hno k hk e hasks

/-- The text of a surviving node is found again where its start is moved to, with the edits inside it made. -/
theorem Survives.text_kept (h : Survives source tree above n) (hg : tree.Grammatical source.length) :
    ∃ fixed inner front rest, Edit.apply source (checkTree source tree).edits = .ok fixed ∧
      Edit.apply (source.slice n.start n.stop) (Edit.within n.start n.stop (checkTree source tree).edits) = .ok inner ∧
      fixed = front ++ (inner ++ rest) ∧ (front.length : Int) = Edit.moved (checkTree source tree).edits n.start ∧
      ((∀ k ∈ preorder above n, ∀ e, ¬ Asks source k e) → inner = source.slice n.start n.stop) := by
  obtain ⟨L, M, hedits, hL, hM⟩ := h.around hg
  have hG := h.chain hg
  obtain ⟨front, rest, hfixed, hfront⟩ := Edit.foldr_splice_middle hL.line hG.line hM.line
  have hinner : Edit.Line 0 (source.slice n.start n.stop).length
      ((gather (editAt source) above n).map (Edit.shift (-n.start))) := by
    have hlen := Bytes.length_slice hL.le hG.le hM.le
    exact hG.line.rebase (by omega)
  have hwithin : Edit.within n.start n.stop (checkTree source tree).edits =
      (gather (editAt source) above n).map (Edit.shift (-n.start)) := by
    rw [hedits, hL.within_eq hG hM]
  rw [hwithin]
  refine ⟨_, _, front, rest, Edit.apply_of_chain (chain_checkTree hg), Edit.apply_of_line hinner, ?_, ?_, fun hno => ?_⟩
  · rw [hedits, hfixed]
  · rw [hedits, hL.moved_split (hG.append hM) (Int.le_refl _) (Int.le_refl _), hfront]
  · rw [h.gather_eq_nil hg hno]
    rfl

/-- A child of a corrected call behind the selector survives. -/
theorem survives_behind_selector (hg : tree.Grammatical source.length) {k : Cursor} {e : Edit} (hk : k ∈ preorder [] tree)
    (he : Asks source k e) {i : Nat} {m : Node} (hi : k.node.children[i]? = some m)
    (hbehind : ∀ j, k.node.childIndex? "method" = some j → j < i) : Survives source tree ((k.node, i) :: k.above) m := by
  have hcall := survives_of_asks hg he hk (self_mem_preorder k.node k.above)
  have hcor := correction?_eq_some_iff.2 he
  obtain ⟨first, last, receiver, selector, hcut⟩ := cut_of_correction? (hcall.grammatical hg).arranged hcor
  exact .child hcall hi ((hcut.kept_iff hcor).2 (Or.inr (hbehind last hcut.methodAt)))

end Offense

/-- In every call of the tree the arguments and the block stand behind the selector. -/
def Node.Sequenced (t : Node) : Prop :=
  ∀ n ∈ t.nodes, n.kind = "call" → ∀ m ∈ n.childIndex? "method",
    (∀ a ∈ n.childIndex? "arguments", m < a) ∧ ∀ b ∈ n.childIndex? "block", m < b

instance (t : Node) : Decidable t.Sequenced := inferInstanceAs (Decidable (∀ n ∈ t.nodes, _))

namespace Offense

open Cursor

/-- Arguments and blocks of corrected calls survive byte for byte. In the corrected text, the bytes from where the child
starts, moved by the edits that end before it, are those that the edits inside the child make of its own bytes:
just these bytes if no call inside it is corrected. No edit lies partly in the child and partly outside. -/
theorem arguments_and_blocks_kept (source : Bytes) (tree : Node) (hg : tree.Grammatical source.length)
    (hs : tree.Sequenced) (k x : Cursor) (e : Edit) (hk : k ∈ preorder [] tree) (he : Asks source k e)
    (hx : k.inField? "arguments" = some x ∨ k.inField? "block" = some x) :
    e ∈ (checkTree source tree).edits ∧
      (∃ fixed inner front rest, Edit.apply source (checkTree source tree).edits = .ok fixed ∧
        Edit.apply (source.slice x.node.start x.node.stop)
          (Edit.within x.node.start x.node.stop (checkTree source tree).edits) = .ok inner ∧
        fixed = front ++ (inner ++ rest) ∧
        (front.length : Int) = Edit.moved (checkTree source tree).edits x.node.start ∧
        ((∀ k' ∈ preorder x.above x.node, ∀ e', ¬ Asks source k' e') →
          inner = source.slice x.node.start x.node.stop)) ∧
      ∀ e' ∈ (checkTree source tree).edits, e'.stop ≤ x.node.start ∨ x.node.stop ≤ e'.start ∨
        (x.node.start ≤ e'.start ∧ e'.stop ≤ x.node.stop) := by
  have hcor := correction?_eq_some_iff.2 he
  have horder := hs k.node (node_mem_nodes hk) (isCall_of_correction? hcor)
  have hsurvives : Survives source tree x.above x.node := by
    obtain ⟨kn, ka⟩ := k
    rcases hx with hx | hx
    · obtain ⟨i, m, hi, hm, rfl⟩ := of_inField? hx
      exact survives_behind_selector hg hk he hm fun j hj => (horder j hj).1 i hi
    · obtain ⟨i, m, hi, hm, rfl⟩ := of_inField? hx
      exact survives_behind_selector hg hk he hm fun j hj => (horder j hj).2 i hi
  refine ⟨?_, hsurvives.text_kept hg, fun e' he' => hsurvives.edit_beside hg he'⟩
  exact (survives_of_asks hg he hk (self_mem_preorder k.node k.above)).edit_mem hg hcor

/-- The block of the outer call in `nestedTree`. -/
def nestedBlock : Node :=
  lineNode "block" 15 33 true (some "block")
    [lineNode "\x7b" 15 16 false none [], sendAt 17 31 none [], lineNode "\x7d" 32 33 false none []]

def nestedCall : Cursor := ⟨sendAt 0 33 none [nestedBlock], [(nestedTree, 0)]⟩

/-- The block moves by three bytes to the left, and the call inside it is corrected. -/
theorem nested_block_kept : nestedTree.Grammatical nestedSource.length ∧ nestedTree.Sequenced ∧
    nestedCall ∈ preorder [] nestedTree ∧ Asks nestedSource nestedCall ⟨0, 14, "freeze_time"⟩ ∧
    nestedCall.inField? "block" = some ⟨nestedBlock, (nestedCall.node, 3) :: nestedCall.above⟩ ∧
    ∃ fixed front rest, Edit.apply nestedSource (checkTree nestedSource nestedTree).edits = .ok fixed ∧
      fixed = front ++ (Bytes.ofString "\x7b travel_back \x7d" ++ rest) ∧ front.length = 12 := by
  have hg : nestedTree.Grammatical nestedSource.length := by decide
  have hs : nestedTree.Sequenced := by decide
  have hk : nestedCall ∈ preorder [] nestedTree := child_mem_preorder (self_mem_preorder nestedTree []) rfl
  have hx : nestedCall.inField? "block" = some ⟨nestedBlock, (nestedCall.node, 3) :: nestedCall.above⟩ := rfl
  obtain ⟨hcor, hgather⟩ : correction? nestedSource nestedCall = some ⟨0, 14, "freeze_time"⟩ ∧
      gather (editAt nestedSource) [] nestedTree = [⟨0, 14, "freeze_time"⟩, ⟨17, 31, "travel_back"⟩] := by
    decide +kernel
  have he := correction?_eq_some_iff.1 hcor
  have hedits : (checkTree nestedSource nestedTree).edits = [⟨0, 14, "freeze_time"⟩, ⟨17, 31, "travel_back"⟩] := by
    rw [checkTree_edits, hgather]
  obtain ⟨-, ⟨fixed, inner, front, rest, hfixed, hinner, hparts, hfront, -⟩, -⟩ :=
    arguments_and_blocks_kept nestedSource nestedTree hg hs nestedCall _ _ hk he (Or.inr hx)
  rw [hedits] at hinner hfront
  have hline : Edit.Line 0 (nestedSource.slice 15 33).length [⟨2, 16, "travel_back"⟩] := by decide
  obtain rfl : Bytes.ofString "\x7b travel_back \x7d" = inner :=
    Except.ok.inj ((Edit.apply_of_line hline).symm.trans hinner)
  exact ⟨hg, hs, hk, he, hx, fixed, front, rest, hfixed, hparts, Int.ofNat.inj hfront⟩

end Offense

end TimeLint
