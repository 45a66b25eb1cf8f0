import TimeLint.Proofs.StableOrder

/-! What becomes of a batch. It is applied exactly if all its edits lie in the source and no two of them share a
byte, and then in one pass over the source. Otherwise it is refused: for the first edit that does not lie in
the source, and if all do, for two edits that share a byte. -/

namespace TimeLint.Edit

variable {source : Bytes} {es : List Edit}

/-- The edit is not reversed and lies in a source of `size` bytes. -/
def InSource (size : Nat) (e : Edit) : Prop := 0 ≤ e.start ∧ e.start ≤ e.stop ∧ e.stop ≤ size

theorem fits_iff_inSource {size : Nat} {e : Edit} : e.fits size = true ↔ e.InSource size := by
  rw [fits_iff, InSource]
  omega

theorem fits_eq_false_iff {size : Nat} {e : Edit} : e.fits size = false ↔ ¬ e.InSource size := by
  rw [← Bool.not_eq_true, fits_iff_inSource]

/-- What holds of every two entries in either order holds at every two positions. -/
theorem pairwise_iff_positions {α : Type} {R : α → α → Prop} (hsymm : ∀ a b, R a b → R b a) {l : List α} :
    l.Pairwise R ↔ ∀ (i j : Nat) (a b : α), i ≠ j → l[i]? = some a → l[j]? = some b → R a b := by
  rw [List.pairwise_iff_getElem]
  constructor
  · intro h i j a b hne hi hj
    obtain ⟨hi', rfl⟩ := List.getElem?_eq_some_iff.1 hi
    obtain ⟨hj', rfl⟩ := List.getElem?_eq_some_iff.1 hj
    rcases Nat.lt_or_gt_of_ne hne with hlt | hlt
    · exact h i j hi' hj' hlt
    · exact hsymm _ _ (h j i hj' hi' hlt)
  · intro h i j hi hj hlt
    exact h i j _ _ (by omega) (List.getElem?_eq_getElem hi) (List.getElem?_eq_getElem hj)

/-- Neighbours in the sorted batch stand at two positions of the batch. -/
theorem positions_of_neighbours {front rest : List Edit} {a b : Edit} (h : sorted es = front ++ a :: b :: rest) :
    ∃ i j : Nat, i ≠ j ∧ es[i]? = some a ∧ es[j]? = some b := by
  refine Classical.byContradiction fun hnone => ?_
  have hsymm : ∀ x y : Edit, ¬ (x = a ∧ y = b) ∧ ¬ (y = a ∧ x = b) → ¬ (y = a ∧ x = b) ∧ ¬ (x = a ∧ y = b) :=
    fun x y hxy => ⟨hxy.2, hxy.1⟩
  have hbatch : es.Pairwise fun x y => ¬ (x = a ∧ y = b) ∧ ¬ (y = a ∧ x = b) := by
    refine (pairwise_iff_positions hsymm).2 fun i j x y hne hi hj => ⟨?_, ?_⟩
    · rintro ⟨rfl, rfl⟩
      exact hnone ⟨i, j, hne, hi, hj⟩
    · rintro ⟨rfl, rfl⟩
      exact hnone ⟨j, i, hne.symm, hj, hi⟩
  have hsorted := (perm_sorted es).symm.pairwise hbatch fun {x y} => hsymm x y
  rw [h] at hsorted
  have hneighbours := (List.pairwise_append.1 hsorted).2.1
  exact (List.rel_of_pairwise_cons hneighbours (List.mem_cons_self)).1 ⟨rfl, rfl⟩

/-- The batch is accepted if every edit lies in the source and those at different positions are separate. -/
theorem accepted_iff_positions : Accepted source.length es ↔ (∀ e ∈ es, e.InSource source.length) ∧
    ∀ (i j : Nat) (a b : Edit), i ≠ j → es[i]? = some a → es[j]? = some b → a.stop ≤ b.start ∨ b.stop ≤ a.start := by
  rw [← pairwise_iff_positions (R := fun a b : Edit => a.stop ≤ b.start ∨ b.stop ≤ a.start) fun _ _ => Or.symm]
  constructor
  · intro h
    exact ⟨fun e he => fits_iff_inSource.1 (h.fit e he), h.separate⟩
  · rintro ⟨hin, hsep⟩
    exact ⟨fun e he => fits_iff_inSource.2 (hin e he), hsep⟩

theorem refused_outside (h : ∃ e ∈ es, ¬ e.InSource source.length) :
    ∃ front e rest, sorted es = front ++ e :: rest ∧ (∀ a ∈ front, a.InSource source.length) ∧
      ¬ e.InSource source.length ∧ apply source es = .error (.outside e) := by
  obtain ⟨e, he, hout⟩ := h
  have houtcome := apply_outcome source es
  generalize happly : apply source es = result at houtcome
  cases houtcome with
  | spliced hline => exact absurd (fits_iff_inSource.1 ((accepted_iff_line.2 hline).fit e he)) hout
  | outside horder hbefore hfirst =>
    exact ⟨_, _, _, horder, fun a ha => fits_iff_inSource.1 (hbefore a ha), fits_eq_false_iff.1 hfirst, rfl⟩
  | overlap _ hfit _ => exact absurd (fits_iff_inSource.1 (hfit e he)) hout

theorem refused_overlap (hin : ∀ e ∈ es, e.InSource source.length) (hno : ∀ out, apply source es ≠ .ok out) :
    ∃ (i j : Nat) (a b : Edit), i ≠ j ∧ es[i]? = some a ∧ es[j]? = some b ∧ a.start ≤ b.start ∧ b.start < a.stop ∧
      apply source es = .error (.overlap a b) := by
  have houtcome := apply_outcome source es
  generalize happly : apply source es = result at houtcome
  cases houtcome with
  | spliced _ => exact absurd happly (hno _)
  | @outside front rest e horder _ hfirst =>
    have he : e ∈ es := (perm_sorted es).mem_iff.1 (by simp [horder])
    exact absurd (hin e he) (fits_eq_false_iff.1 hfirst)
  | @overlap front rest a b horder _ hshare =>
    obtain ⟨i, j, hne, hi, hj⟩ := positions_of_neighbours horder
    have hordered := pairwise_sorted es
    rw [horder] at hordered
    have hab := List.rel_of_pairwise_cons (List.pairwise_append.1 hordered).2.1 List.mem_cons_self
    rw [le_iff] at hab
    exact ⟨i, j, a, b, hne, hi, hj, by omega, hshare, rfl⟩

/-- A batch is applied exactly if its edits lie in the source and no two share a byte. The result is then read off
the source in one pass, with the edits sorted by their ranges and those of one range in the order of the batch.
A batch with an edit that does not lie in the source is refused for the first such edit in sorted order; any other
refused batch is refused for two of its edits that share a byte. -/
theorem apply_disjoint_batches (source : Bytes) (es : List Edit) :
    StablySorts es (sorted es) ∧
      ((∃ out, apply source es = .ok out) ↔ (∀ e ∈ es, e.InSource source.length) ∧
        ∀ (i j : Nat) (a b : Edit), i ≠ j → es[i]? = some a → es[j]? = some b → a.stop ≤ b.start ∨ b.stop ≤ a.start) ∧
      (∀ out, apply source es = .ok out → out = weave source 0 (sorted es)) ∧
      ((∃ e ∈ es, ¬ e.InSource source.length) →
        ∃ front e rest, sorted es = front ++ e :: rest ∧ (∀ a ∈ front, a.InSource source.length) ∧
          ¬ e.InSource source.length ∧ apply source es = .error (.outside e)) ∧
      ((∀ e ∈ es, e.InSource source.length) → (∀ out, apply source es ≠ .ok out) →
        ∃ (i j : Nat) (a b : Edit), i ≠ j ∧ es[i]? = some a ∧ es[j]? = some b ∧ a.start ≤ b.start ∧ b.start < a.stop ∧
          apply source es = .error (.overlap a b)) := by
  refine ⟨stablySorts_sorted es, ?_, fun out h => ?_, refused_outside, refused_overlap⟩
  · rw [apply_eq_ok_iff, accepted_iff_positions]
  · obtain ⟨hline, rfl⟩ := apply_eq_ok h
    exact hline.foldr_splice_eq_weave

end TimeLint.Edit
