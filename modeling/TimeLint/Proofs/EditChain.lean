import TimeLint.Edit.Batch

/-! Edits that stand one behind the other in a source. Such a batch is in order already and is never
refused: it is spliced in from the last edit to the first. -/

namespace TimeLint.Edit

variable {lo mid hi : Int} {es fs : List Edit}

/-- The edits follow each other between `lo` and `hi`; empty ones may share a place. -/
def Line : Int → Int → List Edit → Prop
  | lo, hi, [] => lo ≤ hi
  | lo, hi, e :: es => lo ≤ e.start ∧ e.start ≤ e.stop ∧ Line e.stop hi es

instance decidableLine : (lo hi : Int) → (es : List Edit) → Decidable (Line lo hi es)
  | lo, hi, [] => inferInstanceAs (Decidable (lo ≤ hi))
  | lo, hi, e :: es =>
    have := decidableLine e.stop hi es
    inferInstanceAs (Decidable (lo ≤ e.start ∧ e.start ≤ e.stop ∧ Line e.stop hi es))

theorem Line.nil (h : lo ≤ hi) : Line lo hi [] := h

theorem Line.le (h : Line lo hi es) : lo ≤ hi := by
  induction es generalizing lo with
  | nil => exact h
  | cons e es ih =>
    obtain ⟨h1, h2, h3⟩ := h
    have := ih h3
    omega

theorem line_append : Line lo hi (es ++ fs) ↔ ∃ mid, Line lo mid es ∧ Line mid hi fs := by
  induction es generalizing lo with
  | nil =>
    constructor
    · intro h
      exact ⟨lo, Line.nil (Int.le_refl lo), h⟩
    · rintro ⟨mid, h1, h2⟩
      cases fs with
      | nil => exact Int.le_trans h1 h2
      | cons f fs => exact ⟨Int.le_trans h1 h2.1, h2.2⟩
  | cons e es ih =>
    constructor
    · rintro ⟨h1, h2, h3⟩
      obtain ⟨mid, h4, h5⟩ := ih.1 h3
      exact ⟨mid, ⟨h1, h2, h4⟩, h5⟩
    · rintro ⟨mid, ⟨h1, h2, h3⟩, h4⟩
      exact ⟨h1, h2, ih.2 ⟨mid, h3, h4⟩⟩

theorem Line.append (h1 : Line lo mid es) (h2 : Line mid hi fs) : Line lo hi (es ++ fs) :=
  line_append.2 ⟨mid, h1, h2⟩

theorem Line.widen {lo' hi' : Int} (h : Line lo hi es) (h1 : lo' ≤ lo) (h2 : hi ≤ hi') : Line lo' hi' es := by
  simpa using (Line.nil h1).append (h.append (Line.nil h2))

theorem Line.mem (h : Line lo hi es) : ∀ e ∈ es, lo ≤ e.start ∧ e.start ≤ e.stop ∧ e.stop ≤ hi := by
  induction es generalizing lo with
  | nil => simp
  | cons a es ih =>
    obtain ⟨h1, h2, h3⟩ := h
    intro e he
    rcases List.mem_cons.1 he with rfl | he
    · exact ⟨h1, h2, h3.le⟩
    · have := ih h3 e he
      omega

theorem Line.pairwise (h : Line lo hi es) : es.Pairwise fun a b => a.stop ≤ b.start := by
  induction es generalizing lo with
  | nil => exact List.Pairwise.nil
  | cons a es ih => exact List.Pairwise.cons (fun b hb => (h.2.2.mem b hb).1) (ih h.2.2)

theorem line_of_pairwise (hle : lo ≤ hi) (hes : ∀ e ∈ es, lo ≤ e.start ∧ e.start ≤ e.stop ∧ e.stop ≤ hi)
    (hp : es.Pairwise fun a b => a.stop ≤ b.start) : Line lo hi es := by
  induction es generalizing lo with
  | nil => exact hle
  | cons e es ih =>
    obtain ⟨h1, h2, h3⟩ := hes e (by simp)
    obtain ⟨hbehind, hp⟩ := List.pairwise_cons.1 hp
    refine ⟨h1, h2, ih h3 (fun a ha => ?_) hp⟩
    obtain ⟨-, h4, h5⟩ := hes a (by simp [ha])
    exact ⟨hbehind a ha, h4, h5⟩

theorem le_iff {a b : Edit} : le a b = true ↔ a.start < b.start ∨ (a.start = b.start ∧ a.stop ≤ b.stop) := by
  simp [le]

theorem Line.sorted (h : Line lo hi es) : sorted es = es := by
  apply List.mergeSort_of_pairwise
  refine h.pairwise.imp_of_mem fun {a b} ha hb hab => ?_
  have h1 := h.mem a ha
  have h2 := h.mem b hb
  rw [le_iff]
  omega

@[simp]
theorem sorted_nil : sorted [] = [] := (Line.nil (Int.le_refl 0)).sorted

theorem overlap?_of_pairwise (h : es.Pairwise fun a b => a.stop ≤ b.start) : overlap? es = none := by
  induction es with
  | nil => rfl
  | cons a es ih =>
    cases es with
    | nil => rfl
    | cons b es =>
      obtain ⟨h1, h2⟩ := List.pairwise_cons.1 h
      have hab : ¬ b.start < a.stop := by have := h1 b (by simp); omega
      simp only [overlap?, hab, if_false]
      exact ih h2

/-- A batch that stands in line once it is sorted is spliced in. -/
theorem apply_of_sorted {source : Bytes} (h : Line 0 source.length (sorted es)) :
    apply source es = .ok ((sorted es).foldr splice source) := by
  have hfit : (Edit.sorted es).find? (fun e => !e.fits source.length) = none := by
    rw [List.find?_eq_none]
    intro e he
    obtain ⟨h1, h2, h3⟩ := h.mem e he
    simp only [fits, Bool.not_eq_true', Bool.and_eq_true, decide_eq_true_eq, Bool.not_eq_false]
    omega
  simp only [apply, arrange, hfit, overlap?_of_pairwise h.pairwise]

theorem apply_of_line {source : Bytes} (h : Line 0 source.length es) :
    apply source es = .ok (es.foldr splice source) := by
  have hsorted : Line 0 source.length (Edit.sorted es) := by rwa [h.sorted]
  have happly := apply_of_sorted hsorted
  rwa [h.sorted] at happly

/-- An empty batch changes nothing. -/
theorem apply_nil (source : Bytes) : apply source [] = .ok source := apply_of_line (Line.nil (Int.natCast_nonneg _))

/-- The edits follow each other between `lo` and `hi`, and none of them is empty. -/
def Chain : Int → Int → List Edit → Prop
  | lo, hi, [] => lo ≤ hi
  | lo, hi, e :: es => lo ≤ e.start ∧ e.start < e.stop ∧ Chain e.stop hi es

theorem chain_iff : Chain lo hi es ↔ Line lo hi es ∧ ∀ e ∈ es, e.start < e.stop := by
  induction es generalizing lo with
  | nil => simp [Chain, Line]
  | cons e es ih =>
    simp only [Chain, Line, ih, List.forall_mem_cons]
    constructor
    · rintro ⟨h1, h2, h3, h4⟩
      exact ⟨⟨h1, Int.le_of_lt h2, h3⟩, h2, h4⟩
    · rintro ⟨⟨h1, -, h3⟩, h2, h4⟩
      exact ⟨h1, h2, h3, h4⟩

theorem Chain.line (h : Chain lo hi es) : Line lo hi es := (chain_iff.1 h).1

theorem Chain.le (h : Chain lo hi es) : lo ≤ hi := h.line.le

theorem Chain.append (h1 : Chain lo mid es) (h2 : Chain mid hi fs) : Chain lo hi (es ++ fs) :=
  chain_iff.2 ⟨h1.line.append h2.line, List.forall_mem_append.2 ⟨(chain_iff.1 h1).2, (chain_iff.1 h2).2⟩⟩

theorem Chain.nil (h : lo ≤ hi) : Chain lo hi [] := h

theorem Chain.widen {lo' hi' : Int} (h : Chain lo hi es) (h1 : lo' ≤ lo) (h2 : hi ≤ hi') : Chain lo' hi' es :=
  chain_iff.2 ⟨h.line.widen h1 h2, (chain_iff.1 h).2⟩

theorem Chain.mem (h : Chain lo hi es) : ∀ e ∈ es, lo ≤ e.start ∧ e.start < e.stop ∧ e.stop ≤ hi := by
  intro e he
  obtain ⟨h1, -, h2⟩ := h.line.mem e he
  exact ⟨h1, (chain_iff.1 h).2 e he, h2⟩

theorem Chain.split {e : Edit} (h : Chain lo hi (es ++ e :: fs)) :
    Chain lo e.start es ∧ e.start < e.stop ∧ Chain e.stop hi fs := by
  induction es generalizing lo with
  | nil => exact h
  | cons a es ih =>
    obtain ⟨h1, h2, h3⟩ := h
    obtain ⟨h4, h5⟩ := ih h3
    exact ⟨⟨h1, h2, h4⟩, h5⟩

theorem Chain.pairwise (h : Chain lo hi es) : es.Pairwise fun a b => a.stop ≤ b.start := h.line.pairwise

theorem apply_of_chain {source : Bytes} (h : Chain 0 source.length es) :
    apply source es = .ok (es.foldr splice source) := apply_of_line h.line

end TimeLint.Edit
