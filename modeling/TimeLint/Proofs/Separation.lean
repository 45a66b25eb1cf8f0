import TimeLint.Proofs.Splicing
import TimeLint.Proofs.Tangles
import TimeLint.Proofs.Verdicts

/-! Whether a replacement is a word of its own. An edit starts where its receiver starts. A constant that stands apart
from the word before it keeps the replacement apart, but `::Timecop` may follow a keyword directly: its colons go
with the edit, and keyword and replacement run together. -/

namespace TimeLint

namespace Bytes

/-- ASCII letters, digits and the underscore. -/
def isWord (b : UInt8) : Bool :=
  (0x30 ≤ b && b ≤ 0x39) || (0x41 ≤ b && b ≤ 0x5A) || (0x61 ≤ b && b ≤ 0x7A) || b == 0x5F

/-- The last byte of the text belongs to a word. -/
def endsInWord (bs : Bytes) : Bool := bs.getLast?.any isWord

theorem endsInWord_append {bs cs : Bytes} (h : cs ≠ []) : endsInWord (bs ++ cs) = endsInWord cs := by
  rw [endsInWord, endsInWord, List.getLast?_append_of_ne_nil _ h]

/-- What a text ends in shows in any part of it that reaches the end. -/
theorem endsInWord_slice {source : Bytes} {a b : Int} (ha : 0 ≤ a) (hab : a < b) (hb : b ≤ source.length) :
    endsInWord (source.slice a b) = endsInWord (source.slice 0 b) := by
  have hlen := length_slice ha (Int.le_of_lt hab) hb
  have hne : source.slice a b ≠ [] := by
    rintro h
    rw [h] at hlen
    simp at hlen
    omega
  have hwhole : source.slice 0 b = source.take b.toNat := by
    rw [slice_eq (Int.le_refl 0) (by omega)]
    rfl
  rw [hwhole, ← take_append_slice ha (Int.le_of_lt hab), endsInWord_append hne]

end Bytes

namespace Edit

/-- Where words in front of an edit reach up to it, its replacement follows a word in the new text: the same one, or
the replacement of an edit that ends there. -/
theorem weave_behind_word {source : Bytes} (head : Bytes) {lo : Int} {L M : List Edit} {e : Edit} (h0 : 0 ≤ lo)
    (hline : Line lo source.length (L ++ e :: M)) (hword : (source.slice 0 e.start).endsInWord = true)
    (hL : ∀ f ∈ L, (Bytes.ofString f.replacement).endsInWord = true) (hhead : lo = e.start → head.endsInWord = true) :
    ∃ front rest, head ++ weave source lo (L ++ e :: M) = front ++ (Bytes.ofString e.replacement ++ rest) ∧
      front.endsInWord = true := by
  induction L generalizing lo head with
  | nil =>
    obtain ⟨hle, hfits, hrest⟩ := hline
    have hbound : e.start ≤ source.length := Int.le_trans hfits hrest.le
    refine ⟨head ++ source.slice lo e.start, weave source e.stop M, by simp [weave], ?_⟩
    rcases Int.le_iff_eq_or_lt.1 hle with heq | hlt
    · have hempty : source.slice lo e.start = [] := by
        rw [Bytes.slice_eq h0 (by omega), heq]
        simp
      rw [hempty, List.append_nil]
      exact hhead heq
    · have hsame := Bytes.endsInWord_slice h0 hlt hbound
      have hne : source.slice lo e.start ≠ [] := by
        rintro h
        rw [h, hword] at hsame
        cases hsame
      rw [Bytes.endsInWord_append hne, hsame, hword]
  | cons f L ih =>
    obtain ⟨hle, hfits, hrest⟩ := hline
    have hf := hL f (by simp)
    have hne : Bytes.ofString f.replacement ≠ [] := by
      rintro h
      rw [h] at hf
      cases hf
    have hnext := ih (head ++ source.slice lo f.start ++ Bytes.ofString f.replacement) (by omega) hrest
      (fun g hg => hL g (by simp [hg])) fun _ => (Bytes.endsInWord_append hne).trans hf
    simpa only [List.cons_append, weave, List.append_assoc] using hnext

theorem apply_behind_word {source fixed : Bytes} {es : List Edit} {e : Edit} (happly : apply source es = .ok fixed)
    (hends : ∀ f ∈ es, (Bytes.ofString f.replacement).endsInWord = true) (he : e ∈ es)
    (hword : (source.slice 0 e.start).endsInWord = true) :
    ∃ front rest, fixed = front ++ (Bytes.ofString e.replacement ++ rest) ∧ front.endsInWord = true := by
  obtain ⟨hline, rfl⟩ := apply_eq_ok happly
  obtain ⟨L, M, hsorted⟩ := List.append_of_mem ((perm_sorted es).mem_iff.2 he)
  have hL : ∀ f ∈ L, (Bytes.ofString f.replacement).endsInWord = true := fun f hf =>
    hends f ((perm_sorted es).mem_iff.1 (by simp [hsorted, hf]))
  rw [hline.foldr_splice_eq_weave]
  rw [hsorted] at hline ⊢
  refine weave_behind_word [] (Int.le_refl 0) hline hword hL fun hstart => ?_
  rw [← hstart] at hword
  simp [Bytes.slice, Bytes.clip, Bytes.endsInWord] at hword

end Edit

namespace Offense

open Cursor

variable {source : Bytes} {tree : Node} {k : Cursor} {e : Edit}

/-- The edit of a call starts with the receiver, which stands for the target. -/
theorem Asks.receiver (h : Asks source k e) : ∃ receiver, k.node.child? "receiver" = some receiver ∧
    StandsForTarget source receiver ∧ e.start = receiver.start := by
  cases h with
  | freeze sends _ => exact ⟨_, sends.hasReceiver, sends.toTarget, rfl⟩
  | back sends _ => exact ⟨_, sends.hasReceiver, sends.toTarget, rfl⟩

theorem Asks.endsInWord (h : Asks source k e) : (Bytes.ofString e.replacement).endsInWord = true := by
  cases h with
  | freeze _ _ => exact (by decide : (Bytes.ofString "freeze_time").endsInWord = true)
  | back _ _ => exact (by decide : (Bytes.ofString "travel_back").endsInWord = true)

/-- The reference is more than a constant leaf: `::` with the name behind it, or a constant that has children. -/
inductive Extended : Node → Prop
  | rooted {n name : Node} (kind : n.kind = "scope_resolution") (child : n.child? "name" = some name)
      (before : name.children = [] → n.start < name.start) : Extended n
  | branched {n : Node} (kind : n.kind = "constant") (children : n.children ≠ []) : Extended n

/-- A reference right behind a word is more than a constant, if constants never stand there. -/
theorem extended_of_endsInWord {n : Node} (ht : n.Spanned source.length) (hn : StandsForTarget source n)
    (hapart : ∀ m ∈ n.nodes, m.kind = "constant" → m.children = [] → (source.slice 0 m.start).endsInWord = false)
    (hword : (source.slice 0 n.start).endsInWord = true) : Extended n := by
  cases hn with
  | constant kind _ =>
    refine .branched kind fun hleaf => ?_
    rw [hapart n (Node.self_mem_nodes n) kind hleaf] at hword
    cases hword
  | @rooted name kind _ child constant _ =>
    refine .rooted kind child fun hleaf => ?_
    obtain ⟨i, -, hi⟩ := Node.child?_eq_some child
    have hmem := List.mem_of_getElem? hi
    have hinside := (ht.nested.inside name hmem).1
    -- at the same place the constant would follow the word as well
    refine Int.lt_iff_le_and_ne.2 ⟨hinside, fun heq => ?_⟩
    have hno := hapart name (Node.mem_nodes_of_child hmem (Node.self_mem_nodes name)) constant hleaf
    rw [← heq, hword] at hno
    cases hno

/-- If no constant leaf stands right behind a word, an edit starts right behind a word exactly if the call that asks for
it has a receiver that starts there and is more than such a leaf, as `::Timecop` is. The replacement then follows a
word in the corrected text as well. -/
theorem replacement_behind_word_iff (source : Bytes) (tree : Node) (ht : tree.Spanned source.length)
    (hapart : ∀ n ∈ tree.nodes, n.kind = "constant" → n.children = [] → (source.slice 0 n.start).endsInWord = false) :
    (∀ e, (e ∈ (checkTree source tree).edits ∧ (source.slice 0 e.start).endsInWord = true) ↔
      ∃ k ∈ preorder [] tree, Asks source k e ∧ ∃ receiver, k.node.child? "receiver" = some receiver ∧
        Extended receiver ∧ (source.slice 0 receiver.start).endsInWord = true) ∧
    ∀ fixed, Edit.apply source (checkTree source tree).edits = .ok fixed → ∀ e ∈ (checkTree source tree).edits,
      (source.slice 0 e.start).endsInWord = true →
        ∃ front rest, fixed = front ++ (Bytes.ofString e.replacement ++ rest) ∧ front.endsInWord = true := by
  refine ⟨fun e => ⟨?_, ?_⟩, fun fixed hfixed e he hword => ?_⟩
  · rintro ⟨he, hword⟩
    obtain ⟨k, hk, hasks⟩ := mem_edits_iff.1 he
    obtain ⟨receiver, hreceiver, htarget, hstart⟩ := hasks.receiver
    rw [hstart] at hword
    obtain ⟨i, -, hi⟩ := Node.child?_eq_some hreceiver
    have hmem := List.mem_of_getElem? hi
    have hnodes : ∀ m ∈ receiver.nodes, m ∈ tree.nodes := fun m hm =>
      Node.mem_nodes_trans (node_mem_nodes hk) (Node.mem_nodes_of_child hmem hm)
    exact ⟨k, hk, hasks, receiver, hreceiver, extended_of_endsInWord (((ht.visited hk).1).child hmem) htarget
      (fun m hm => hapart m (hnodes m hm)) hword, hword⟩
  · rintro ⟨k, hk, hasks, receiver, hreceiver, -, hword⟩
    obtain ⟨receiver', hreceiver', -, hstart⟩ := hasks.receiver
    obtain rfl := Option.some.inj (hreceiver.symm.trans hreceiver')
    exact ⟨mem_edits_iff.2 ⟨k, hk, hasks⟩, hstart ▸ hword⟩
  · refine Edit.apply_behind_word hfixed (fun f hf => ?_) he hword
    obtain ⟨k, -, hasks⟩ := mem_edits_iff.1 hf
    exact hasks.endsInWord

/-- A call on `::Timecop` right behind a keyword. -/
def keywordSource : Bytes := Bytes.ofString "x and::Timecop.freeze"

def keywordReceiver : Node :=
  lineNode "scope_resolution" 5 14 true (some "receiver")
    [lineNode "::" 5 7 false none [], lineNode "constant" 7 14 true (some "name") []]

def keywordCall : Node :=
  lineNode "call" 5 21 true (some "right")
    [keywordReceiver, lineNode "." 14 15 false none [], lineNode "identifier" 15 21 true (some "method") []]

def keywordOperation : Node :=
  lineNode "binary" 0 21 true none
    [lineNode "identifier" 0 1 true (some "left") [], lineNode "and" 2 5 false (some "operator") [], keywordCall]

def keywordTree : Node := lineNode "program" 0 21 true none [keywordOperation]

def keywordCursor : Cursor := ⟨keywordCall, [(keywordOperation, 2), (keywordTree, 0)]⟩

theorem mem_keywordTree : keywordCursor ∈ preorder [] keywordTree :=
  child_mem_preorder (child_mem_preorder (self_mem_preorder keywordTree []) rfl) rfl

theorem asks_keywordCall : Asks keywordSource keywordCursor ⟨5, 21, "freeze_time"⟩ := by
  have hs : Sends keywordSource keywordCursor keywordReceiver
      (lineNode "identifier" 15 21 true (some "method") []) "freeze" :=
    ⟨rfl, rfl, .rooted rfl rfl rfl rfl (Node.text_eq rfl), rfl, by decide,
      ⟨lineNode "." 14 15 false none [], rfl, Or.inl rfl⟩, isAssigned_eq_false_iff.1 rfl, Node.text_eq rfl⟩
  exact .freeze hs (argumentCount_eq_zero_iff.1 rfl)

/-- No constant of the tree stands right behind a word, and yet the replacement is put right behind the keyword. -/
theorem keyword_runs_together : keywordTree.Spanned keywordSource.length ∧
    (∀ n ∈ keywordTree.nodes, n.kind = "constant" → n.children = [] →
      (keywordSource.slice 0 n.start).endsInWord = false) ∧
    ∃ e ∈ (checkTree keywordSource keywordTree).edits, 0 < e.start ∧ (keywordSource.slice 0 e.start).endsInWord = true :=
  ⟨by decide, by decide, _, mem_edits_iff.2 ⟨_, mem_keywordTree, asks_keywordCall⟩, by decide, by decide⟩

/-- In the corrected text the keyword and the replacement are one word. -/
theorem keyword_joined : keywordTree.Spanned keywordSource.length ∧
    (∀ n ∈ keywordTree.nodes, n.kind = "constant" → n.children = [] →
      (keywordSource.slice 0 n.start).endsInWord = false) ∧
    ∃ fixed front rest, Edit.apply keywordSource (checkTree keywordSource keywordTree).edits = .ok fixed ∧
      fixed = front ++ (Bytes.ofString "freeze_time" ++ rest) ∧ front.endsInWord = true := by
  have ht : keywordTree.Spanned keywordSource.length := by decide
  have hapart : ∀ n ∈ keywordTree.nodes, n.kind = "constant" → n.children = [] →
      (keywordSource.slice 0 n.start).endsInWord = false := by decide
  have hg : keywordTree.Grammatical keywordSource.length := by decide
  have happly := Edit.apply_of_chain (chain_checkTree hg)
  obtain ⟨hiff, hfixed⟩ := replacement_behind_word_iff keywordSource keywordTree ht hapart
  obtain ⟨he, hword⟩ := (hiff ⟨5, 21, "freeze_time"⟩).2
    ⟨keywordCursor, mem_keywordTree, asks_keywordCall, keywordReceiver, rfl, .rooted rfl rfl fun _ => by decide, by decide⟩
  obtain ⟨front, rest, heq, hfront⟩ := hfixed _ happly _ he hword
  exact ⟨ht, hapart, _, front, rest, happly, heq, hfront⟩

end Offense

end TimeLint
