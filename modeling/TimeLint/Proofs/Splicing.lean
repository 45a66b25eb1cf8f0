import TimeLint.Proofs.EditChain

/-! What splicing makes of a text. Splicing edits in from the last to the first, in a text that changes with
each of them, gives what one pass over the first text gives. A text may be cut where no edit covers the cut:
both parts are spliced on their own, the second with offsets that count from the cut. -/

namespace TimeLint

/-- Offsets that do not count from the end are clipped by the text itself. -/
theorem Bytes.slice_eq {source : Bytes} {a b : Int} (ha : 0 ≤ a) (hb : 0 ≤ b) :
    source.slice a b = (source.take b.toNat).drop a.toNat := by
  have hclip : ∀ i : Int, 0 ≤ i → clip source.length i = min i.toNat source.length := fun i hi => if_neg (by omega)
  rw [slice, hclip a ha, hclip b hb, ← List.take_eq_take_min]
  rcases Nat.le_total a.toNat source.length with hle | hle
  · rw [Nat.min_eq_left hle]
  · have hfront : (source.take b.toNat).length ≤ source.length := List.length_take_le' _ _
    rw [Nat.min_eq_right hle, List.drop_eq_nil_of_le hfront, List.drop_eq_nil_of_le (Nat.le_trans hfront hle)]

theorem Bytes.take_append_slice {source : Bytes} {a b : Int} (ha : 0 ≤ a) (hab : a ≤ b) :
    source.take a.toNat ++ source.slice a b = source.take b.toNat := by
  have hle : min a.toNat b.toNat = a.toNat := by omega
  have hcut := List.take_append_drop a.toNat (source.take b.toNat)
  rwa [List.take_take, hle, ← slice_eq ha (by omega)] at hcut

theorem Bytes.length_front {source : Bytes} {a : Int} (ha : 0 ≤ a) (hle : a ≤ source.length) :
    ((source.take a.toNat).length : Int) = a := by
  rw [List.length_take]
  omega

theorem Bytes.length_slice {source : Bytes} {a b : Int} (ha : 0 ≤ a) (hab : a ≤ b) (hb : b ≤ source.length) :
    ((source.slice a b).length : Int) = b - a := by
  rw [slice_eq ha (by omega), List.length_drop, List.length_take]
  omega

namespace Edit

variable {lo hi : Int} {source : Bytes} {es fs : List Edit}

/-- The text from `pos` on with the edits made in one pass: what stands before the next edit, its replacement,
and so on behind it. -/
def weave (source : Bytes) : Int → List Edit → Bytes
  | pos, [] => source.slice pos source.length
  | pos, e :: es => source.slice pos e.start ++ (Bytes.ofString e.replacement ++ weave source e.stop es)

/-- Edits behind `lo` leave the text before `lo` as it is and weave the rest. -/
theorem Line.foldr_splice (h : Line lo source.length es) (h0 : 0 ≤ lo) :
    es.foldr splice source = source.take lo.toNat ++ weave source lo es := by
  induction es generalizing lo with
  | nil =>
    rw [weave, Bytes.take_append_slice h0 h.le]
    simp
  | cons e es ih =>
    obtain ⟨h1, h2, h3⟩ := h
    have hle := h3.le
    have hstop : (source.take e.stop.toNat).length = e.stop.toNat := by
      rw [List.length_take]
      omega
    rw [List.foldr_cons, ih h3 (by omega), splice, weave, ← List.append_assoc, Bytes.take_append_slice h0 h1,
      List.take_append_of_le_length (by omega), List.take_take, Nat.min_eq_left (by omega), List.drop_left' hstop,
      List.append_assoc]

/-- Edits behind `lo` leave the text at least that long. -/
theorem Line.le_length_foldr_splice (h : Line lo source.length es) (h0 : 0 ≤ lo) :
    lo ≤ (es.foldr splice source).length := by
  have hfront := Bytes.length_front h0 h.le
  rw [h.foldr_splice h0, List.length_append]
  omega

theorem Line.foldr_splice_eq_weave (h : Line 0 source.length es) : es.foldr splice source = weave source 0 es := by
  rw [h.foldr_splice (Int.le_refl 0)]
  rfl

/-- Edits in the front part of a text leave the rest as it is. -/
theorem Line.foldr_splice_append {front : Bytes} (h : Line lo front.length es) (h0 : 0 ≤ lo) (rest : Bytes) :
    es.foldr splice (front ++ rest) = es.foldr splice front ++ rest := by
  induction es generalizing lo with
  | nil => rfl
  | cons e es ih =>
    obtain ⟨h1, h2, h3⟩ := h
    have hlong := h3.le_length_foldr_splice (by omega)
    rw [List.foldr_cons, List.foldr_cons, ih h3 (by omega), splice, splice,
      List.take_append_of_le_length (by omega), List.drop_append_of_le_length (by omega)]
    simp only [List.append_assoc]

/-- The edit `d` bytes further on. -/
def shift (d : Int) (e : Edit) : Edit := ⟨e.start + d, e.stop + d, e.replacement⟩

theorem map_shift_shift (a b : Int) (es : List Edit) : (es.map (shift a)).map (shift b) = es.map (shift (a + b)) := by
  rw [List.map_map]
  refine List.map_congr_left fun e _ => ?_
  simp [shift, Int.add_assoc]

theorem map_shift_zero (es : List Edit) : es.map (shift 0) = es := by
  have hzero : shift 0 = id := by
    funext e
    simp [shift]
  rw [hzero, List.map_id]

theorem Line.shift (h : Line lo hi es) (d : Int) : Line (lo + d) (hi + d) (es.map (shift d)) := by
  induction es generalizing lo with
  | nil => exact Int.add_le_add_right h d
  | cons e es ih =>
    obtain ⟨h1, h2, h3⟩ := h
    exact ⟨Int.add_le_add_right h1 d, Int.add_le_add_right h2 d, ih h3⟩

/-- Edits in line with offsets that count from where the line starts. -/
theorem Line.rebase {size : Int} (h : Line lo hi es) (hsize : hi - lo ≤ size) : Line 0 size (es.map (Edit.shift (-lo))) :=
  (h.shift (-lo)).widen (by omega) (by omega)

theorem splice_shift {e : Edit} (h1 : 0 ≤ e.start) (h2 : e.start ≤ e.stop) (front rest : Bytes) :
    splice (shift front.length e) (front ++ rest) = front ++ splice e rest := by
  have hstart : (e.start + front.length).toNat = front.length + e.start.toNat := by omega
  have hstop : (e.stop + front.length).toNat = front.length + e.stop.toNat := by omega
  simp only [splice, Edit.shift, hstart, hstop, List.take_length_add_append, List.drop_length_add_append,
    List.append_assoc]

/-- Edits moved behind a front part leave that part as it is. -/
theorem Line.foldr_splice_shift (h : Line lo hi es) (h0 : 0 ≤ lo) (front rest : Bytes) :
    (es.map (Edit.shift front.length)).foldr splice (front ++ rest) = front ++ es.foldr splice rest := by
  induction es generalizing lo with
  | nil => rfl
  | cons e es ih =>
    obtain ⟨h1, h2, h3⟩ := h
    rw [List.map_cons, List.foldr_cons, ih h3 (by omega), splice_shift (by omega) h2, List.foldr_cons]

/-- A text cut where no edit covers the cut. -/
theorem foldr_splice_cut {front rest : Bytes} (h1 : Line 0 front.length es)
    (h2 : Line front.length (front ++ rest).length fs) :
    (es ++ fs).foldr splice (front ++ rest) =
      es.foldr splice front ++ (fs.map (shift (-front.length))).foldr splice rest := by
  have hback := (h2.shift (-front.length)).foldr_splice_shift (by omega) front rest
  rw [map_shift_shift, Int.add_left_neg, map_shift_zero] at hback
  rw [List.foldr_append, hback, h1.foldr_splice_append (Int.le_refl 0)]

end Edit

end TimeLint
