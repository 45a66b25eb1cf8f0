import TimeLint.Proofs.Splicing

/-! Offsets in the corrected text. An offset moves by the net growth of the edits before it. Offsets that
lie inside no edit keep their order, and the bytes between two of them with no edit in between are the
same in the corrected text. -/

namespace TimeLint.Edit

/-- By how much the text grows. -/
def growth (e : Edit) : Int := (Bytes.ofString e.replacement).length - (e.stop - e.start)

/-- By how much the text grows with all edits. -/
def growths : List Edit → Int
  | [] => 0
  | e :: es => e.growth + growths es

/-- Where an offset stands once the edits before it are made. -/
def moved (edits : List Edit) (offset : Int) : Int := offset + growths (edits.filter fun e => e.stop ≤ offset)

theorem growths_append (es fs : List Edit) : growths (es ++ fs) = growths es + growths fs := by
  induction es with
  | nil => simp [growths]
  | cons e es ih => simp [growths, ih, Int.add_assoc]

theorem moved_cons (e : Edit) (es : List Edit) (o : Int) :
    moved (e :: es) o = moved es o + if e.stop ≤ o then e.growth else 0 := by
  unfold moved
  by_cases h : e.stop ≤ o
  · simp [h, growths]
    omega
  · simp [h]

theorem moved_before {es : List Edit} {o : Int} (h : ∀ e ∈ es, o < e.stop) : moved es o = o := by
  have hnone : es.filter (fun e => e.stop ≤ o) = [] := by
    rw [List.filter_eq_nil_iff]
    intro e he
    have := h e he
    simp
    omega
  simp [moved, hnone, growths]

theorem Chain.moved_start {lo hi o : Int} {es : List Edit} (h : Chain lo hi es) (ho : o ≤ lo) : moved es o = o := by
  refine moved_before fun e he => ?_
  have := h.mem e he
  omega

/-- The offset lies inside no edit. -/
def Clear (es : List Edit) (o : Int) : Prop := ∀ e ∈ es, e.stop ≤ o ∨ o ≤ e.start

theorem clear_of_chains {L M : List Edit} {lo hi o : Int} (hl : Chain lo o L) (hr : Chain o hi M) : Clear (L ++ M) o := by
  intro e he
  rcases List.mem_append.1 he with he | he
  · exact Or.inl (hl.mem e he).2.2
  · exact Or.inr (hr.mem e he).1

-- the induction is on the edits from the left; `a` and `b` lie both behind the first edit, both before it,
-- or on either side of it, and in the last case its replacement stands between them
theorem Chain.moved_lt {lo hi : Int} {es : List Edit} (h : Chain lo hi es)
    (hpos : ∀ e ∈ es, 0 < (Bytes.ofString e.replacement).length) {a b : Int} (ha : Clear es a) (hb : Clear es b)
    (hab : a < b) : moved es a < moved es b := by
  induction es generalizing lo a with
  | nil => simpa [moved, growths] using hab
  | cons e es ih =>
    obtain ⟨h1, h2, h3⟩ := h
    have ha' : Clear es a := fun x hx => ha x (by simp [hx])
    have hb' : Clear es b := fun x hx => hb x (by simp [hx])
    have hpos' : ∀ x ∈ es, 0 < (Bytes.ofString x.replacement).length := fun x hx => hpos x (by simp [hx])
    rw [moved_cons, moved_cons]
    rcases ha e (by simp) with hea | hae
    · have := ih h3 hpos' ha' hb' hab
      rw [if_pos hea, if_pos (by omega)]
      omega
    · have hna : ¬ e.stop ≤ a := by omega
      rw [if_neg hna, h3.moved_start (by omega)]
      rcases hb e (by simp) with heb | hbe
      · have hclear : Clear es e.stop := fun x hx => Or.inr (h3.mem x hx).1
        have hstop := h3.moved_start (Int.le_refl e.stop)
        have hle : e.stop ≤ moved es b := by
          rcases Int.lt_or_eq_of_le heb with hlt | rfl
          · have := ih h3 hpos' hclear hb' hlt
            omega
          · exact Int.le_of_eq hstop.symm
        have hr := hpos e (by simp)
        rw [if_pos heb, growth]
        omega
      · have hnb : ¬ e.stop ≤ b := by omega
        rw [if_neg hnb, h3.moved_start (by omega)]
        omega

theorem Chain.moved_le_iff {lo hi : Int} {es : List Edit} (h : Chain lo hi es)
    (hpos : ∀ e ∈ es, 0 < (Bytes.ofString e.replacement).length) {a b : Int} (ha : Clear es a) (hb : Clear es b) :
    moved es a ≤ moved es b ↔ a ≤ b := by
  constructor
  · intro hle
    refine Int.not_lt.1 fun hlt => ?_
    have := h.moved_lt hpos hb ha hlt
    omega
  · intro hle
    rcases Int.lt_or_eq_of_le hle with hlt | rfl
    · exact Int.le_of_lt (h.moved_lt hpos ha hb hlt)
    · exact Int.le_refl _

theorem moved_behind {es : List Edit} {o : Int} (h : ∀ e ∈ es, e.stop ≤ o) : moved es o = o + growths es := by
  have hall : es.filter (fun e => e.stop ≤ o) = es := by
    rw [List.filter_eq_self]
    intro e he
    simpa using h e he
  rw [moved, hall]

theorem moved_append (L M : List Edit) (o : Int) : moved (L ++ M) o = moved L o + moved M o - o := by
  simp only [moved, List.filter_append, growths_append]
  omega

theorem Chain.moved_split {L M : List Edit} {a b lo hi o : Int} (hl : Chain lo a L) (hr : Chain b hi M) (h1 : a ≤ o)
    (h2 : o ≤ b) : moved (L ++ M) o = o + growths L := by
  have hL : moved L o = o + growths L := moved_behind fun e he => by
    have := hl.mem e he
    omega
  rw [moved_append, hL, hr.moved_start h2]
  omega

/-- An edit's start and its replacement end where the offset behind the edit is moved to. -/
theorem Chain.moved_stop {lo hi : Int} {es : List Edit} {e : Edit} (h : Chain lo hi es) (he : e ∈ es) :
    moved es e.start + (Bytes.ofString e.replacement).length = moved es e.stop := by
  obtain ⟨L, M, rfl⟩ := List.append_of_mem he
  obtain ⟨hL, hlt, hM⟩ := h.split
  have hfrom : Chain e.start hi (e :: M) := ⟨Int.le_refl _, hlt, hM⟩
  have hto : Chain lo e.stop (L ++ [e]) := hL.append ⟨Int.le_refl _, hlt, Int.le_refl _⟩
  have h1 := hL.moved_split hfrom (Int.le_refl _) (Int.le_refl _)
  have h2 := hto.moved_split hM (Int.le_refl _) (Int.le_refl _)
  rw [List.append_assoc, List.singleton_append] at h2
  rw [h1, h2]
  simp only [growths_append, growths, growth]
  omega

theorem Chain.clear_stop {lo hi : Int} {es : List Edit} {e : Edit} (h : Chain lo hi es) (he : e ∈ es) :
    Clear es e.stop := by
  obtain ⟨L, M, rfl⟩ := List.append_of_mem he
  obtain ⟨hL, hlt, hM⟩ := h.split
  have hto : Chain lo e.stop (L ++ [e]) := hL.append ⟨Int.le_refl _, hlt, Int.le_refl _⟩
  simpa using clear_of_chains hto hM

theorem Line.length_foldr_splice {lo : Int} {source : Bytes} {es : List Edit} (h : Line lo source.length es)
    (h0 : 0 ≤ lo) : ((es.foldr splice source).length : Int) = source.length + growths es := by
  induction es generalizing lo with
  | nil => simp [growths]
  | cons e es ih =>
    obtain ⟨h1, h2, h3⟩ := h
    have hlen := ih h3 (by omega)
    have hlong := h3.le_length_foldr_splice (by omega)
    simp only [List.foldr_cons, splice, List.length_append, List.length_take, List.length_drop, growths, growth] at hlen ⊢
    omega

/-- The text between two offsets that no edit covers: it stands in the new text with the edits between them made,
behind what the edits before them leave. -/
theorem foldr_splice_middle {L G M : List Edit} {source : Bytes} {a b : Int} (hL : Line 0 a L) (hG : Line a b G)
    (hM : Line b source.length M) :
    ∃ front rest : Bytes, (L ++ (G ++ M)).foldr splice source =
        front ++ ((G.map (shift (-a))).foldr splice (source.slice a b) ++ rest) ∧
      (front.length : Int) = a + growths L := by
  have ha := hL.le
  have hab := hG.le
  have hb := hM.le
  have hlen := Bytes.length_front ha (Int.le_trans hab hb)
  have hmid := Bytes.length_slice ha hab hb
  have hsplit : source.take a.toNat ++ (source.slice a b ++ source.drop b.toNat) = source := by
    rw [← List.append_assoc, Bytes.take_append_slice ha hab, List.take_append_drop]
  have hL' : Line 0 (source.take a.toNat).length L := by rwa [hlen]
  have hGM : Line (source.take a.toNat).length
      (source.take a.toNat ++ (source.slice a b ++ source.drop b.toNat)).length (G ++ M) := by
    rw [hlen, hsplit]
    exact hG.append hM
  have hG' : Line 0 (source.slice a b).length (G.map (shift (-a))) := hG.rebase (by omega)
  have hM' : Line (source.slice a b).length (source.slice a b ++ source.drop b.toNat).length (M.map (shift (-a))) := by
    refine (hM.shift (-a)).widen (by omega) ?_
    rw [List.length_append, List.length_drop]
    omega
  have hcut := foldr_splice_cut hL' hGM
  rw [hsplit, hlen, List.map_append, foldr_splice_cut hG' hM'] at hcut
  refine ⟨_, _, hcut, ?_⟩
  rw [hL'.length_foldr_splice (Int.le_refl 0), hlen]

/-- A stretch of the source without edits is found again in the new text. -/
theorem slice_foldr_splice {source : Bytes} {L M : List Edit} {a b : Int} (hl : Chain 0 a L)
    (hr : Chain b source.length M) (hab : a ≤ b) :
    ((L ++ M).foldr splice source).slice (moved (L ++ M) a) (moved (L ++ M) b) = source.slice a b := by
  obtain ⟨front, rest, hnew, hlen⟩ := foldr_splice_middle hl.line (Line.nil hab) hr.line
  simp only [List.nil_append, List.map_nil, List.foldr_nil] at hnew
  have hmid := Bytes.length_slice hl.le hab hr.le
  rw [hl.moved_split hr (Int.le_refl a) hab, hl.moved_split hr hab (Int.le_refl b), hnew]
  generalize source.slice a b = mid at hmid
  have hstop : (b + growths L).toNat = (front ++ mid).length := by
    rw [List.length_append]
    omega
  rw [Bytes.slice_eq (by omega) (by omega), hstop, ← List.append_assoc,
    List.take_left', List.drop_left']
  all_goals omega

end TimeLint.Edit
