import TimeLint.Proofs.Acceptance
import TimeLint.Proofs.Splicing

/-! The order in which the edits of a batch are made. Edits are sorted by their ranges, and edits of one range
stay in the order they were given in. This says all about the sorted batch: two lists in order that agree on
the edits of every range are the same list. -/

namespace TimeLint.Edit

variable {es fs xs ys : List Edit}

/-- The edit replaces the bytes from `a` up to `b`. -/
def spans (a b : Int) (e : Edit) : Bool := e.start == a && e.stop == b

theorem spans_iff {a b : Int} {e : Edit} : e.spans a b = true ↔ e.start = a ∧ e.stop = b := by
  simp [spans]

theorem spans_self (e : Edit) : e.spans e.start e.stop = true := spans_iff.2 ⟨rfl, rfl⟩

/-- `out` has the edits of `es` in order of start and end, and those of one range in the order of `es`. -/
structure StablySorts (es out : List Edit) : Prop where
  perm : out.Perm es
  ordered : out.Pairwise fun x y => x.start < y.start ∨ (x.start = y.start ∧ x.stop ≤ y.stop)
  stable : ∀ a b, out.filter (spans a b) = es.filter (spans a b)

/-- The first edit of a list in order has the least range. -/
theorem le_of_ordered {x y : Edit} (hx : (x :: xs).Pairwise fun a b => le a b = true) (h : y ∈ x :: xs) :
    le x y = true := by
  rcases List.mem_cons.1 h with rfl | h
  · simp [le]
  · exact List.rel_of_pairwise_cons hx h

theorem mem_iff_of_filter (h : ∀ a b, xs.filter (spans a b) = ys.filter (spans a b)) (e : Edit) : e ∈ xs ↔ e ∈ ys := by
  have he : e ∈ xs.filter (spans e.start e.stop) ↔ e ∈ ys.filter (spans e.start e.stop) := by rw [h]
  simpa [List.mem_filter, spans_self] using he

-- the heads have the same range, as each is least in both lists; then they are the first of that range in both
theorem eq_of_ordered (hx : xs.Pairwise fun a b => le a b = true) (hy : ys.Pairwise fun a b => le a b = true)
    (h : ∀ a b, xs.filter (spans a b) = ys.filter (spans a b)) : xs = ys := by
  induction xs generalizing ys with
  | nil =>
    cases ys with
    | nil => rfl
    | cons y ys => simpa using mem_iff_of_filter h y
  | cons x xs ih =>
    cases ys with
    | nil => simpa using mem_iff_of_filter h x
    | cons y ys =>
      have hxy := le_of_ordered hx ((mem_iff_of_filter h y).2 (by simp))
      have hyx := le_of_ordered hy ((mem_iff_of_filter h x).1 (by simp))
      rw [le_iff] at hxy hyx
      have hspans : y.spans x.start x.stop = true := spans_iff.2 (by omega)
      obtain rfl : x = y := by
        have hheads := h x.start x.stop
        rw [List.filter_cons_of_pos (spans_self x), List.filter_cons_of_pos hspans] at hheads
        exact (List.cons.inj hheads).1
      have htails : ∀ a b, xs.filter (spans a b) = ys.filter (spans a b) := by
        intro a b
        have hab := h a b
        by_cases hs : x.spans a b = true
        · rw [List.filter_cons_of_pos hs, List.filter_cons_of_pos hs] at hab
          exact (List.cons.inj hab).2
        · rwa [List.filter_cons_of_neg hs, List.filter_cons_of_neg hs] at hab
      rw [ih hx.of_cons hy.of_cons htails]

/-- Edits of one range are in order, whichever way they come. -/
theorem pairwise_ties (es : List Edit) (a b : Int) : (es.filter (spans a b)).Pairwise fun x y => le x y = true := by
  refine List.pairwise_of_forall_mem_list fun x hx y hy => ?_
  have h1 := spans_iff.1 (List.mem_filter.1 hx).2
  have h2 := spans_iff.1 (List.mem_filter.1 hy).2
  rw [le_iff]
  omega

theorem sorted_ties (es : List Edit) (a b : Int) : sorted (es.filter (spans a b)) = es.filter (spans a b) :=
  List.mergeSort_of_pairwise (pairwise_ties es a b)

/-- Edits of one range keep their order. -/
theorem filter_sorted (es : List Edit) (a b : Int) : (sorted es).filter (spans a b) = es.filter (spans a b) := by
  have hsub : List.Sublist (es.filter (spans a b)) (sorted es) :=
    List.sublist_mergeSort trans_le total_le (pairwise_ties es a b) List.filter_sublist
  have hfilter := hsub.filter (spans a b)
  simp only [List.filter_filter, Bool.and_self] at hfilter
  exact (hfilter.eq_of_length ((perm_sorted es).filter _).length_eq.symm).symm

theorem stablySorts_sorted (es : List Edit) : StablySorts es (sorted es) :=
  ⟨perm_sorted es, (pairwise_sorted es).imp le_iff.1, filter_sorted es⟩

/-- The sorted batch is known once the edits of each range are. -/
theorem sorted_congr (h : ∀ a b, es.filter (spans a b) = fs.filter (spans a b)) : sorted es = sorted fs := by
  refine eq_of_ordered (pairwise_sorted es) (pairwise_sorted fs) fun a b => ?_
  rw [filter_sorted, filter_sorted, h a b]

theorem apply_congr {source : Bytes} (h : sorted es = sorted fs) : apply source es = apply source fs := by
  simp only [apply, arrange, h]

/-- Edits of different ranges may change places. -/
theorem sorted_swap {x y : Edit} (h : y.spans x.start x.stop = false) (es : List Edit) :
    sorted (x :: y :: es) = sorted (y :: x :: es) := by
  refine sorted_congr fun a b => ?_
  by_cases hx : x.spans a b = true
  · obtain ⟨rfl, rfl⟩ := spans_iff.1 hx
    simp [List.filter_cons, h]
  · simp [List.filter_cons, hx]

theorem sorted_append (h : ∀ a ∈ es, ∀ b ∈ fs, le a b = true) : sorted (es ++ fs) = sorted es ++ sorted fs := by
  refine eq_of_ordered (pairwise_sorted _) ?_ fun a b => ?_
  · refine List.pairwise_append.2 ⟨pairwise_sorted es, pairwise_sorted fs, fun a ha b hb => ?_⟩
    exact h a ((perm_sorted es).mem_iff.1 ha) b ((perm_sorted fs).mem_iff.1 hb)
  · rw [filter_sorted, List.filter_append, List.filter_append, filter_sorted, filter_sorted]

theorem sorted_map_shift (d : Int) (es : List Edit) : sorted (es.map (shift d)) = (sorted es).map (shift d) := by
  refine (List.map_mergeSort fun a _ b _ => ?_).symm
  rw [Bool.eq_iff_iff, le_iff, le_iff]
  simp only [shift]
  omega

end TimeLint.Edit
