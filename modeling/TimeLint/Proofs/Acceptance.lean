import TimeLint.Proofs.EditChain

/-! Which batches are accepted: those whose edits all lie in the source and of which no two share a byte. The
order of the batch plays no part in this. -/

namespace TimeLint.Edit

variable {size : Nat} {es fs : List Edit}

/-- One of the edits ends where the other starts or before. -/
def Separate (a b : Edit) : Prop := a.stop ≤ b.start ∨ b.stop ≤ a.start

theorem Separate.symm {a b : Edit} (h : Separate a b) : Separate b a := Or.symm h

/-- Every edit lies in a source of `size` bytes, and no two share a byte. -/
structure Accepted (size : Nat) (es : List Edit) : Prop where
  fit : ∀ e ∈ es, e.fits size = true
  separate : es.Pairwise Separate

theorem fits_iff {e : Edit} : e.fits size = true ↔ 0 ≤ e.start ∧ e.stop ≤ size ∧ e.start ≤ e.stop := by
  simp [fits, and_assoc]

theorem Accepted.perm (hp : es.Perm fs) (h : Accepted size es) : Accepted size fs :=
  ⟨fun e he => h.fit e (hp.mem_iff.2 he), hp.pairwise h.separate Separate.symm⟩

theorem perm_sorted (es : List Edit) : (sorted es).Perm es := List.mergeSort_perm es le

theorem trans_le (a b c : Edit) (hab : le a b = true) (hbc : le b c = true) : le a c = true := by
  rw [le_iff] at hab hbc ⊢
  omega

theorem total_le (a b : Edit) : (le a b || le b a) = true := by
  rw [Bool.or_eq_true, le_iff, le_iff]
  omega

theorem pairwise_sorted (es : List Edit) : (sorted es).Pairwise fun a b => le a b = true :=
  List.pairwise_mergeSort trans_le total_le es

-- neighbours alone are compared; that no edit runs backwards carries the comparison on
theorem pairwise_of_overlap? (hf : ∀ e ∈ es, e.start ≤ e.stop) (h : overlap? es = none) :
    es.Pairwise fun a b => a.stop ≤ b.start := by
  induction es with
  | nil => exact List.Pairwise.nil
  | cons a es ih =>
    cases es with
    | nil => exact List.pairwise_singleton _ _
    | cons b es =>
      rw [overlap?] at h
      split at h
      · cases h
      · rename_i hab
        have htail := ih (fun e he => hf e (List.mem_cons_of_mem _ he)) h
        refine List.Pairwise.cons (fun c hc => ?_) htail
        have hb := hf b (by simp)
        rcases List.mem_cons.1 hc with rfl | hc
        · omega
        · have hbc := List.rel_of_pairwise_cons htail hc
          omega

/-- A batch is accepted exactly if it stands in line once it is sorted. -/
theorem accepted_iff_line : Accepted size es ↔ Line 0 size (sorted es) := by
  constructor
  · intro h
    have hs := h.perm (perm_sorted es).symm
    have hbounds : ∀ e ∈ sorted es, 0 ≤ e.start ∧ e.start ≤ e.stop ∧ e.stop ≤ size := by
      intro e he
      have := fits_iff.1 (hs.fit e he)
      omega
    refine line_of_pairwise (Int.natCast_nonneg size) hbounds ?_
    refine ((pairwise_sorted es).and hs.separate).imp_of_mem fun {a b} ha hb hab => ?_
    obtain ⟨hle, hsep⟩ := hab
    have h1 := hbounds a ha
    have h2 := hbounds b hb
    rw [le_iff] at hle
    unfold Separate at hsep
    omega
  · intro h
    have hsorted : Accepted size (sorted es) := by
      refine ⟨fun e he => ?_, h.pairwise.imp Or.inl⟩
      have := h.mem e he
      rw [fits_iff]
      omega
    exact hsorted.perm (perm_sorted es)

/-- The edits that are found to overlap are neighbours. -/
theorem overlap?_eq_some {a b : Edit} (h : overlap? es = some (a, b)) :
    b.start < a.stop ∧ ∃ front rest, es = front ++ a :: b :: rest := by
  induction es with
  | nil => cases h
  | cons x es ih =>
    cases es with
    | nil => cases h
    | cons y es =>
      rw [overlap?] at h
      split at h
      · rename_i hxy
        obtain ⟨rfl, rfl⟩ : x = a ∧ y = b := by simpa using h
        exact ⟨hxy, [], es, rfl⟩
      · obtain ⟨hab, front, rest, heq⟩ := ih h
        exact ⟨hab, x :: front, rest, by rw [heq]; rfl⟩

/-- What may become of a batch. -/
inductive Outcome (source : Bytes) (es : List Edit) : Except Refusal Bytes → Prop
  | spliced (line : Line 0 source.length (sorted es)) : Outcome source es (.ok ((sorted es).foldr splice source))
  | outside {front rest : List Edit} {e : Edit} (order : sorted es = front ++ e :: rest)
      (before : ∀ a ∈ front, a.fits source.length = true) (out : e.fits source.length = false) :
      Outcome source es (.error (.outside e))
  | overlap {front rest : List Edit} {a b : Edit} (order : sorted es = front ++ a :: b :: rest)
      (fit : ∀ e ∈ es, e.fits source.length = true) (share : b.start < a.stop) :
      Outcome source es (.error (.overlap a b))

theorem apply_outcome (source : Bytes) (es : List Edit) : Outcome source es (apply source es) := by
  cases hfit : (sorted es).find? (fun e => !e.fits source.length) with
  | some e =>
    obtain ⟨hout, front, rest, heq, hfront⟩ := List.find?_eq_some_iff_append.1 hfit
    simp only [apply, arrange, hfit]
    exact .outside heq (fun a ha => by simpa using hfront a ha) (by simpa using hout)
  | none =>
    have hall : ∀ e ∈ sorted es, e.fits source.length = true := fun e he => by
      simpa using List.find?_eq_none.1 hfit e he
    cases hover : overlap? (sorted es) with
    | some x =>
      obtain ⟨a, b⟩ := x
      obtain ⟨hab, front, rest, heq⟩ := overlap?_eq_some hover
      simp only [apply, arrange, hfit, hover]
      exact .overlap heq (fun e he => hall e ((perm_sorted es).mem_iff.2 he)) hab
    | none =>
      have hpair := pairwise_of_overlap? (fun e he => (fits_iff.1 (hall e he)).2.2) hover
      have hline : Line 0 source.length (sorted es) := line_of_pairwise (Int.natCast_nonneg _) (fun e he => by
        have := fits_iff.1 (hall e he)
        omega) hpair
      rw [apply_of_sorted hline]
      exact .spliced hline

theorem apply_eq_ok {source out : Bytes} (h : apply source es = .ok out) :
    Line 0 source.length (sorted es) ∧ out = (sorted es).foldr splice source := by
  have houtcome := apply_outcome source es
  rw [h] at houtcome
  cases houtcome with
  | spliced hline => exact ⟨hline, rfl⟩

/-- A batch is applied as a whole exactly if it is accepted. -/
theorem apply_eq_ok_iff {source : Bytes} : (∃ out, apply source es = .ok out) ↔ Accepted source.length es := by
  rw [accepted_iff_line]
  constructor
  · rintro ⟨out, h⟩
    exact (apply_eq_ok h).1
  · intro h
    exact ⟨_, apply_of_sorted h⟩

end TimeLint.Edit
