import TimeLint.Offense.Check
import TimeLint.Proofs.StableOrder
import TimeLint.Proofs.Verdicts

/-! Edits of texts. Offsets count bytes, but where they stand at character boundaries an edit replaces characters: the
bytes between two boundaries are those of the characters between them, so that splicing bytes and splicing characters
give the same text. In particular what is left is always a text. -/

namespace TimeLint

namespace Bytes

open String (utf8EncodeChar)

/-- The bytes of a list of characters. -/
def encode (cs : List Char) : Bytes := cs.flatMap utf8EncodeChar

theorem ofString_eq_encode (s : String) : ofString s = encode s.toList := ofString_eq s

theorem encode_append (cs ds : List Char) : encode (cs ++ ds) = encode cs ++ encode ds := List.flatMap_append

theorem decode_encode (cs : List Char) : decode (encode cs) = some (String.ofList cs) := by
  rw [decode_eq_some_iff, ofString_eq_encode, String.toList_ofList]

/-- Where character number `i` starts: the number of bytes before it. -/
def offset (cs : List Char) (i : Nat) : Nat := (encode (cs.take i)).length

@[simp]
theorem offset_zero (cs : List Char) : offset cs 0 = 0 := rfl

@[simp]
theorem offset_succ (c : Char) (cs : List Char) (i : Nat) :
    offset (c :: cs) (i + 1) = (utf8EncodeChar c).length + offset cs i := by
  simp [offset, encode]

theorem offset_length (cs : List Char) : offset cs cs.length = (encode cs).length := by
  rw [offset, List.take_length]

theorem length_utf8EncodeChar_pos (c : Char) : 0 < (utf8EncodeChar c).length :=
  List.length_pos_iff.2 String.utf8EncodeChar_ne_nil

theorem offset_lt {cs : List Char} {i j : Nat} (hij : i < j) (hj : j ≤ cs.length) : offset cs i < offset cs j := by
  induction cs generalizing i j with
  | nil => simp only [List.length_nil] at hj; omega
  | cons c cs ih =>
    obtain ⟨j, rfl⟩ : ∃ k, j = k + 1 := ⟨j - 1, by omega⟩
    have hc := length_utf8EncodeChar_pos c
    cases i with
    | zero => rw [offset_zero, offset_succ]; omega
    | succ i =>
      have := ih (i := i) (j := j) (by omega) (by simpa using hj)
      rw [offset_succ, offset_succ]
      omega

/-- Boundaries are in the order of their characters. -/
theorem offset_le_iff {cs : List Char} {i j : Nat} (hi : i ≤ cs.length) (hj : j ≤ cs.length) :
    offset cs i ≤ offset cs j ↔ i ≤ j := by
  constructor
  · intro h
    by_contra hlt
    have := offset_lt (Nat.lt_of_not_le hlt) hi
    omega
  · intro h
    rcases Nat.lt_or_eq_of_le h with hlt | rfl
    · exact Nat.le_of_lt (offset_lt hlt hj)
    · exact Nat.le_refl _

theorem take_encode (cs : List Char) (i : Nat) : (encode cs).take (offset cs i) = encode (cs.take i) := by
  conv_lhs => rw [← List.take_append_drop i cs, encode_append]
  rw [List.take_append_drop]
  exact List.take_left

/-- What stands between two boundaries are the bytes of the characters between them. -/
theorem slice_encode (cs : List Char) {i j : Nat} (hij : i ≤ j) :
    (encode cs).slice (offset cs i) (offset cs j) = encode ((cs.take j).drop i) := by
  have hfront : cs.take j = cs.take i ++ (cs.take j).drop i := by
    have hcut := List.take_append_drop i (cs.take j)
    rw [List.take_take, Nat.min_eq_left hij] at hcut
    exact hcut.symm
  rw [slice_eq (Int.natCast_nonneg _) (Int.natCast_nonneg _), Int.toNat_natCast, Int.toNat_natCast, take_encode]
  conv_lhs => rw [hfront, encode_append]
  exact List.drop_left

/-- The character that starts at an offset: the number of characters that end there or before. -/
def charAt : List Char → Nat → Nat
  | [], _ => 0
  | c :: cs, n => if n < (utf8EncodeChar c).length then 0 else charAt cs (n - (utf8EncodeChar c).length) + 1

theorem charAt_offset {cs : List Char} {i : Nat} (h : i ≤ cs.length) : charAt cs (offset cs i) = i := by
  induction cs generalizing i with
  | nil =>
    obtain rfl : i = 0 := by simpa using h
    rfl
  | cons c cs ih =>
    cases i with
    | zero => rw [offset_zero, charAt, if_pos (length_utf8EncodeChar_pos c)]
    | succ i => rw [offset_succ, charAt, if_neg (by omega), Nat.add_sub_cancel_left, ih (by simpa using h)]

end Bytes

/-- An edit that replaces the characters from `start` up to `stop`. -/
structure CharEdit where
  start : Nat
  stop : Nat
  replacement : String
deriving Repr, DecidableEq, Inhabited

namespace CharEdit

/-- Order by start, then by end. -/
def le (a b : CharEdit) : Bool := a.start < b.start || (a.start == b.start && a.stop ≤ b.stop)

/-- The characters from `pos` on with the edits made in one pass. -/
def weave (cs : List Char) : Nat → List CharEdit → List Char
  | pos, [] => cs.drop pos
  | pos, f :: fs => (cs.take f.start).drop pos ++ (f.replacement.toList ++ weave cs f.stop fs)

/-- The text with the edits made: sorted by their ranges, and those of one range in the order they are given in. -/
def splice (s : String) (fs : List CharEdit) : String := String.ofList (weave s.toList 0 (fs.mergeSort le))

/-- The edit in bytes. -/
def inBytes (cs : List Char) (f : CharEdit) : Edit := ⟨Bytes.offset cs f.start, Bytes.offset cs f.stop, f.replacement⟩

/-- The range of the edit lies in the text. -/
def Fits (cs : List Char) (f : CharEdit) : Prop := f.start ≤ cs.length ∧ f.stop ≤ cs.length

variable {cs : List Char} {fs : List CharEdit}

theorem le_inBytes {a b : CharEdit} (ha : a.Fits cs) (hb : b.Fits cs) : le a b = Edit.le (a.inBytes cs) (b.inBytes cs) := by
  have h1 := Bytes.offset_le_iff ha.1 hb.1
  have h2 := Bytes.offset_le_iff hb.1 ha.1
  have h3 := Bytes.offset_le_iff ha.2 hb.2
  rw [Bool.eq_iff_iff, Edit.le_iff]
  simp only [le, inBytes, Bool.or_eq_true, Bool.and_eq_true, decide_eq_true_eq, beq_iff_eq]
  omega

theorem sorted_inBytes (h : ∀ f ∈ fs, f.Fits cs) : Edit.sorted (fs.map (inBytes cs)) = (fs.mergeSort le).map (inBytes cs) :=
  (List.map_mergeSort (f := inBytes cs) fun a ha b hb => le_inBytes (h a ha) (h b hb)).symm

/-- Weaving bytes between boundaries weaves characters. -/
theorem weave_inBytes {pos : Nat} (hpos : pos ≤ cs.length) (h : ∀ f ∈ fs, f.Fits cs)
    (hline : Edit.Line (Bytes.offset cs pos) (Bytes.encode cs).length (fs.map (inBytes cs))) :
    Edit.weave (Bytes.encode cs) (Bytes.offset cs pos) (fs.map (inBytes cs)) = Bytes.encode (weave cs pos fs) := by
  induction fs generalizing pos with
  | nil =>
    have hall := Bytes.slice_encode cs hpos
    rw [Bytes.offset_length, List.take_length] at hall
    exact hall
  | cons f fs ih =>
    -- the line puts the edit behind `pos` in bytes, and so it stands behind `pos` in characters
    obtain ⟨hbefore, -, hrest⟩ := hline
    obtain ⟨hstart, hstop⟩ := h f (by simp)
    have hle : pos ≤ f.start := (Bytes.offset_le_iff hpos hstart).1 (Int.ofNat_le.1 hbefore)
    have hnext := ih hstop (fun g hg => h g (by simp [hg])) hrest
    rw [List.map_cons, Edit.weave, weave, Bytes.encode_append, Bytes.encode_append, ← Bytes.slice_encode cs hle,
      ← Bytes.ofString_eq_encode, ← hnext]
    rfl

/-- Edits at boundaries leave the bytes of the characters that the edits in characters leave. -/
theorem apply_inBytes (h : ∀ f ∈ fs, f.Fits cs) (hok : Edit.Accepted (Bytes.encode cs).length (fs.map (inBytes cs))) :
    Edit.apply (Bytes.encode cs) (fs.map (inBytes cs)) = .ok (Bytes.encode (weave cs 0 (fs.mergeSort le))) := by
  have hline := Edit.accepted_iff_line.1 hok
  rw [Edit.apply_of_sorted hline, hline.foldr_splice_eq_weave]
  rw [sorted_inBytes h] at hline ⊢
  rw [← weave_inBytes (Nat.zero_le _) (fun f hf => h f (List.mem_mergeSort.1 hf)) hline, Bytes.offset_zero]
  rfl

theorem applyText_inBytes {s : String} (h : ∀ f ∈ fs, f.Fits s.toList)
    (hok : Edit.Accepted (Bytes.ofString s).length (fs.map (inBytes s.toList))) :
    Edit.applyText s (fs.map (inBytes s.toList)) = .ok (splice s fs) := by
  rw [Bytes.ofString_eq_encode] at hok
  rw [Edit.applyText, Bytes.ofString_eq_encode, apply_inBytes h hok]
  simp only [Bytes.decode_encode, splice]

end CharEdit

namespace Edit

variable {s : String} {es : List Edit}

/-- The offset is where a character of the text starts, or its end. -/
def OnBoundary (s : String) (n : Int) : Prop := ∃ i ≤ s.length, n = Bytes.offset s.toList i

instance (s : String) (n : Int) : Decidable (OnBoundary s n) :=
  inferInstanceAs (Decidable (∃ i ≤ s.length, n = Bytes.offset s.toList i))

/-- The edit in characters. -/
def inChars (s : String) (e : Edit) : CharEdit :=
  ⟨Bytes.charAt s.toList e.start.toNat, Bytes.charAt s.toList e.stop.toNat, e.replacement⟩

/-- At boundaries an edit in bytes is an edit in characters. -/
theorem inBytes_inChars {e : Edit} (hstart : OnBoundary s e.start) (hstop : OnBoundary s e.stop) :
    (e.inChars s).Fits s.toList ∧ (e.inChars s).inBytes s.toList = e := by
  obtain ⟨start, stop, replacement⟩ := e
  obtain ⟨i, hi, rfl⟩ := hstart
  obtain ⟨j, hj, rfl⟩ := hstop
  rw [← String.length_toList] at hi hj
  simp only [inChars, Int.toNat_natCast, Bytes.charAt_offset hi, Bytes.charAt_offset hj]
  exact ⟨⟨hi, hj⟩, rfl⟩

theorem map_inBytes_inChars (h : ∀ e ∈ es, OnBoundary s e.start ∧ OnBoundary s e.stop) :
    (es.map (inChars s)).map (CharEdit.inBytes s.toList) = es := by
  rw [List.map_map]
  exact (List.map_congr_left fun e he => (inBytes_inChars (h e he).1 (h e he).2).2).trans (List.map_id es)

/-- A batch at boundaries is applied to a text as a batch of edits in characters. -/
theorem applyText_of_boundaries (hok : Accepted (Bytes.ofString s).length es)
    (h : ∀ e ∈ es, OnBoundary s e.start ∧ OnBoundary s e.stop) :
    applyText s es = .ok (CharEdit.splice s (es.map (inChars s))) := by
  have hfits : ∀ f ∈ es.map (inChars s), f.Fits s.toList := by
    intro f hf
    obtain ⟨e, he, rfl⟩ := List.mem_map.1 hf
    exact (inBytes_inChars (h e he).1 (h e he).2).1
  have happly := CharEdit.applyText_inBytes hfits (by rwa [map_inBytes_inChars h])
  rwa [map_inBytes_inChars h] at happly

/-- A batch at boundaries leaves a text, if it is not refused. -/
theorem applyText_ne_undecodable (h : ∀ e ∈ es, OnBoundary s e.start ∧ OnBoundary s e.stop) :
    applyText s es ≠ .error .undecodable := by
  cases happly : apply (Bytes.ofString s) es with
  | error r => simp [applyText, happly]
  | ok out => simp [applyText_of_boundaries (apply_eq_ok_iff.1 ⟨out, happly⟩) h]

end Edit

namespace Offense

open Cursor

variable {source : Bytes} {tree : Node} {k : Cursor} {e : Edit}

theorem mem_nodes_of_child? {name : String} {n : Node} (hk : k ∈ preorder [] tree) (h : k.node.child? name = some n) :
    n ∈ tree.nodes := by
  obtain ⟨i, -, hi⟩ := Node.child?_eq_some h
  exact node_mem_nodes (child_mem_preorder hk hi)

/-- An edit reaches from the start of one node to the end of another. -/
theorem ends_of_mem_edits (he : e ∈ (checkTree source tree).edits) :
    ∃ receiver ∈ tree.nodes, ∃ method ∈ tree.nodes, e.start = receiver.start ∧ e.stop = method.stop := by
  obtain ⟨k, hk, hasks⟩ := mem_edits_iff.1 he
  -- extents may be of any shape here, so that only the ends of the edit are known
  cases hasks with
  | freeze sends _ =>
    exact ⟨_, mem_nodes_of_child? hk sends.hasReceiver, _, mem_nodes_of_child? hk sends.hasMethod, rfl, rfl⟩
  | back sends _ =>
    exact ⟨_, mem_nodes_of_child? hk sends.hasReceiver, _, mem_nodes_of_child? hk sends.hasMethod, rfl, rfl⟩

end Offense

namespace Edit

open Offense (lineNode sendAt)

/-- Edits in bytes at character boundaries are edits in characters. Each is the edit of a range of characters, and
where the batch is accepted the text is left with the replacements in the place of these characters. A correction
leaves a text, or is refused, where all nodes start and end at boundaries. -/
theorem boundary_edits_splice_characters (s : String) :
    (∀ es : List Edit, (∃ out, apply (Bytes.ofString s) es = .ok out) →
      (∀ e ∈ es, OnBoundary s e.start ∧ OnBoundary s e.stop) →
      (∀ e ∈ es, (e.inChars s).start ≤ (e.inChars s).stop ∧ (e.inChars s).stop ≤ s.length ∧
        (e.inChars s).inBytes s.toList = e) ∧
      applyText s es = .ok (CharEdit.splice s (es.map (inChars s)))) ∧
    ∀ parse : Parser, (∀ n ∈ (parse (Bytes.ofString s)).nodes, OnBoundary s n.start ∧ OnBoundary s n.stop) →
      correctText parse s ≠ .error .undecodable := by
  constructor
  · intro es hok h
    have haccepted := apply_eq_ok_iff.1 hok
    refine ⟨fun e he => ?_, applyText_of_boundaries haccepted h⟩
    obtain ⟨⟨hstart, hstop⟩, hback⟩ := inBytes_inChars (h e he).1 (h e he).2
    have hforward : (e.inChars s).start ≤ (e.inChars s).stop := by
      have hfit := (fits_iff.1 (haccepted.fit e he)).2.2
      rw [← hback] at hfit
      exact (Bytes.offset_le_iff hstart hstop).1 (Int.ofNat_le.1 hfit)
    exact ⟨hforward, String.length_toList ▸ hstop, hback⟩
  · intro parse h
    refine applyText_ne_undecodable fun e he => ?_
    obtain ⟨receiver, hreceiver, method, hmethod, hstart, hstop⟩ := Offense.ends_of_mem_edits he
    rw [hstart, hstop]
    exact ⟨(h receiver hreceiver).1, (h method hmethod).2⟩

/-- A comment of characters of two, three and four bytes above a call. -/
def snowText : String := "# é☃😀\nTimecop.return"

def snowTree : Node :=
  lineNode "program" 0 26 true none [lineNode "comment" 0 11 true none [], sendAt 12 26 none []]

def snowEdits : List Edit := [⟨2, 4, "e"⟩, ⟨12, 26, "travel_back"⟩]

theorem snow_spliced : (∃ out, apply (Bytes.ofString snowText) snowEdits = .ok out) ∧
    (∀ e ∈ snowEdits, OnBoundary snowText e.start ∧ OnBoundary snowText e.stop) ∧
    snowEdits.map (inChars snowText) = [⟨2, 3, "e"⟩, ⟨6, 20, "travel_back"⟩] ∧
    applyText snowText snowEdits = .ok "# e☃😀\ntravel_back" ∧
    (∀ n ∈ snowTree.nodes, OnBoundary snowText n.start ∧ OnBoundary snowText n.stop) ∧
    correctText (fun _ => snowTree) snowText ≠ .error .undecodable := by
  have hline : Line 0 (Bytes.ofString snowText).length snowEdits := by decide
  have hok : ∃ out, apply (Bytes.ofString snowText) snowEdits = .ok out := ⟨_, apply_of_line hline⟩
  have hchars : snowEdits.map (inChars snowText) = [⟨2, 3, "e"⟩, ⟨6, 20, "travel_back"⟩] := by decide
  have hbounds : ∀ e ∈ snowEdits, OnBoundary snowText e.start ∧ OnBoundary snowText e.stop := by
    decide
  have hnodes : ∀ n ∈ snowTree.nodes, OnBoundary snowText n.start ∧ OnBoundary snowText n.stop := by
    decide
  obtain ⟨hedits, hcorrect⟩ := boundary_edits_splice_characters snowText
  have hspliced := (hedits snowEdits hok hbounds).2
  rw [hchars, CharEdit.splice, List.mergeSort_of_pairwise (by decide)] at hspliced
  exact ⟨hok, hbounds, hchars, hspliced, hnodes, hcorrect _ hnodes⟩

end Edit

end TimeLint
