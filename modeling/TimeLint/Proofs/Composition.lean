import TimeLint.Proofs.Offsets
import TimeLint.Proofs.StableOrder

/-! Batches that are made one after the other. A batch that falls into a front part and a back part can be made in
two steps: the back part first, or the front part first and the back part then at offsets moved by what the
front part has grown. All comes from cutting the text between the two parts. -/

namespace TimeLint.Edit

variable {source front rest : Bytes} {es fs : List Edit}

theorem growths_perm (h : es.Perm fs) : growths es = growths fs := by
  induction h with
  | nil => rfl
  | cons e _ ih => rw [growths, growths, ih]
  | swap a b es =>
    simp only [growths]
    omega
  | trans _ _ ih1 ih2 => exact ih1.trans ih2

/-- Edits that stand in line before others come before them in the order of ranges. -/
theorem sorted_append_of_lines {lo mid hi : Int} (h1 : Line lo mid (sorted es)) (h2 : Line mid hi (sorted fs)) :
    sorted (es ++ fs) = sorted es ++ sorted fs := by
  refine sorted_append fun a ha b hb => ?_
  have h3 := h1.mem a ((perm_sorted es).mem_iff.2 ha)
  have h4 := h2.mem b ((perm_sorted fs).mem_iff.2 hb)
  rw [le_iff]
  omega

/-- A text cut between two batches: each is made in its own part. -/
theorem apply_cut (h1 : Line 0 front.length (sorted es)) (h2 : Line front.length (front ++ rest).length (sorted fs)) :
    ∃ x y, apply front es = .ok x ∧ apply rest (fs.map (shift (-front.length))) = .ok y ∧
      apply (front ++ rest) (es ++ fs) = .ok (x ++ y) ∧ (x.length : Int) = front.length + growths es := by
  have hsorted := sorted_append_of_lines h1 h2
  have hback : Line 0 rest.length (sorted (fs.map (shift (-front.length)))) := by
    rw [sorted_map_shift]
    refine h2.rebase ?_
    rw [List.length_append]
    omega
  refine ⟨_, _, apply_of_sorted h1, apply_of_sorted hback, ?_, ?_⟩
  · have hline : Line 0 (front ++ rest).length (sorted (es ++ fs)) := by
      rw [hsorted]
      exact h1.append h2
    rw [apply_of_sorted hline, hsorted, foldr_splice_cut h1 h2, sorted_map_shift]
  · rw [h1.length_foldr_splice (Int.le_refl 0), growths_perm (perm_sorted es)]

/-- A batch for the front part of a text. -/
theorem apply_front (h : Line 0 front.length (sorted es)) (rest : Bytes) :
    ∃ x, apply front es = .ok x ∧ apply (front ++ rest) es = .ok (x ++ rest) ∧
      (x.length : Int) = front.length + growths es := by
  have hnone : Line front.length (front ++ rest).length (sorted []) := by
    rw [sorted_nil, List.length_append]
    exact Line.nil (by omega)
  obtain ⟨x, y, hx, hy, hxy, hlen⟩ := apply_cut h hnone
  rw [List.map_nil, apply_nil] at hy
  obtain rfl : rest = y := by simpa using hy
  rw [List.append_nil] at hxy
  exact ⟨x, hx, hxy, hlen⟩

/-- A batch for the back part of a text. -/
theorem apply_back (h : Line front.length (front ++ rest).length (sorted fs)) :
    ∃ y, apply rest (fs.map (shift (-front.length))) = .ok y ∧ apply (front ++ rest) fs = .ok (front ++ y) := by
  have hnone : Line 0 front.length (sorted []) := by
    rw [sorted_nil]
    exact Line.nil (Int.natCast_nonneg _)
  obtain ⟨x, y, hx, hy, hxy, -⟩ := apply_cut hnone h
  rw [apply_nil] at hx
  obtain rfl : front = x := by simpa using hx
  exact ⟨y, hy, hxy⟩

/-- Where a batch falls into a front part and a back part, the text can be cut between them. -/
theorem cut_between {out : Bytes} (h : apply source (es ++ fs) = .ok out) (hsep : ∀ a ∈ es, ∀ b ∈ fs, a.stop ≤ b.start) :
    ∃ front rest, source = front ++ rest ∧ Line 0 front.length (sorted es) ∧
      Line front.length (front ++ rest).length (sorted fs) := by
  have hline := (apply_eq_ok h).1
  have hmem : ∀ e, e ∈ sorted (es ++ fs) ↔ e ∈ es ++ fs := fun e => (perm_sorted (es ++ fs)).mem_iff
  have hsorted : sorted (es ++ fs) = sorted es ++ sorted fs := by
    refine sorted_append fun a ha b hb => ?_
    have h1 := hline.mem a ((hmem _).2 (List.mem_append_left _ ha))
    have h2 := hline.mem b ((hmem _).2 (List.mem_append_right _ hb))
    have h3 := hsep a ha b hb
    rw [le_iff]
    omega
  rw [hsorted] at hline
  obtain ⟨mid, h1, h2⟩ := line_append.1 hline
  have hlen := Bytes.length_front h1.le h2.le
  refine ⟨source.take mid.toNat, source.drop mid.toNat, (List.take_append_drop _ _).symm, ?_, ?_⟩
  · rwa [hlen]
  · rwa [hlen, List.take_append_drop]

/-- A batch whose second part lies behind its first part may be made in two steps: first the second part and then the
first, or first the first part and then the second, moved by what the first part makes the text grow. -/
theorem apply_append (source out : Bytes) (es fs : List Edit) (h : apply source (es ++ fs) = .ok out)
    (hsep : ∀ a ∈ es, ∀ b ∈ fs, a.stop ≤ b.start) :
    (∃ later, apply source fs = .ok later ∧ apply later es = .ok out) ∧
      ∃ earlier, apply source es = .ok earlier ∧ apply earlier (fs.map (shift (growths es))) = .ok out := by
  obtain ⟨front, rest, rfl, h1, h2⟩ := cut_between h hsep
  obtain ⟨x, y, hx, hy, hxy, hlen⟩ := apply_cut h1 h2
  obtain rfl : x ++ y = out := by simpa [hxy] using h
  constructor
  · obtain ⟨y', hy', hlater⟩ := apply_back h2
    obtain rfl : y = y' := by simpa [hy] using hy'
    obtain ⟨x', hx', hout, -⟩ := apply_front h1 y
    obtain rfl : x = x' := by simpa [hx] using hx'
    exact ⟨_, hlater, hout⟩
  · obtain ⟨x', hx', hearlier, -⟩ := apply_front h1 rest
    obtain rfl : x = x' := by simpa [hx] using hx'
    have hmoved : Line x.length (x ++ rest).length (sorted (fs.map (shift (growths es)))) := by
      rw [sorted_map_shift]
      refine (h2.shift (growths es)).widen (by omega) ?_
      simp only [List.length_append]
      omega
    obtain ⟨y', hy', hout⟩ := apply_back hmoved
    rw [map_shift_shift, hlen, show growths es + -(front.length + growths es) = -(front.length : Int) by omega, hy] at hy'
    obtain rfl : y = y' := by simpa using hy'
    exact ⟨_, hearlier, hout⟩

def seamText : Bytes := Bytes.ofString "abcdef"

/-- Makes the text shorter, and inserts at the seam. -/
def seamFront : List Edit := [⟨2, 2, "X"⟩, ⟨0, 2, ""⟩]

/-- Inserts at the seam too. -/
def seamBack : List Edit := [⟨4, 5, "yz"⟩, ⟨2, 2, "W"⟩]

theorem apply_append_seam : apply seamText (seamFront ++ seamBack) = .ok (Bytes.ofString "XWcdyzf") ∧
    growths seamFront = -1 ∧
    (∃ later, apply seamText seamBack = .ok later ∧ apply later seamFront = .ok (Bytes.ofString "XWcdyzf")) ∧
    ∃ earlier, apply seamText seamFront = .ok earlier ∧
      apply earlier (seamBack.map (shift (-1))) = .ok (Bytes.ofString "XWcdyzf") := by
  have happly : apply seamText (seamFront ++ seamBack) = .ok (Bytes.ofString "XWcdyzf") := by
    have hfront : sorted seamFront = [⟨0, 2, ""⟩, ⟨2, 2, "X"⟩] := by
      rw [seamFront, sorted_swap (by decide)]
      exact Line.sorted (show Line 0 2 _ by decide)
    have hback : sorted seamBack = [⟨2, 2, "W"⟩, ⟨4, 5, "yz"⟩] := by
      rw [seamBack, sorted_swap (by decide)]
      exact Line.sorted (show Line 2 5 _ by decide)
    have hsorted : sorted (seamFront ++ seamBack) = [⟨0, 2, ""⟩, ⟨2, 2, "X"⟩, ⟨2, 2, "W"⟩, ⟨4, 5, "yz"⟩] := by
      rw [sorted_append (by decide), hfront, hback]
      rfl
    rw [apply_of_sorted (by rw [hsorted]; decide), hsorted]
    rfl
  have hgrowth : growths seamFront = -1 := by decide
  have hsteps := apply_append seamText _ seamFront seamBack happly (by decide)
  rw [hgrowth] at hsteps
  exact ⟨happly, hgrowth, hsteps⟩

end TimeLint.Edit
