import Mathlib.Data.List.Pairwise
import TimeLint.Proofs.Composition

/-! The order of a batch plays no part in what becomes of it, but for edits of one range. Whether the batch is
refused, and with which message, is settled by the ranges alone, and these are the same list once sorted. Of an
accepted batch only insertions at one place have the same range; they are written in the order of the batch. -/

namespace TimeLint.Edit

variable {source : Bytes} {size : Nat} {es fs : List Edit}

/-- The edits cover the same bytes. -/
def SameRange (a b : Edit) : Prop := a.start = b.start ∧ a.stop = b.stop

/-- The edit with its replacement forgotten. -/
def blank (e : Edit) : Edit := ⟨e.start, e.stop, ""⟩

theorem blank_eq_iff {a b : Edit} : a.blank = b.blank ↔ SameRange a b := by
  simp [blank, SameRange]

def Refusal.blank : Refusal → Refusal
  | outside e => outside e.blank
  | overlap a b => overlap a.blank b.blank

theorem Refusal.message_blank (r : Refusal) : r.blank.message = r.message := by
  cases r <;> rfl

theorem sorted_blank (es : List Edit) : sorted (es.map blank) = (sorted es).map blank := by
  refine (List.map_mergeSort fun a _ b _ => ?_).symm
  rfl

theorem overlap?_blank (es : List Edit) :
    overlap? (es.map blank) = (overlap? es).map fun x => (x.1.blank, x.2.blank) := by
  induction es with
  | nil => rfl
  | cons a es ih =>
    cases es with
    | nil => rfl
    | cons b es =>
      simp only [List.map_cons, overlap?] at ih ⊢
      by_cases h : b.start < a.stop
      · simp [h, blank]
      · have hblank : ¬ b.blank.start < a.blank.stop := h
        rw [if_neg h, if_neg hblank, ih]

/-- A batch is judged by its ranges. -/
theorem arrange_blank (size : Nat) (es : List Edit) : arrange size (es.map blank) =
    match arrange size es with
    | .error r => .error r.blank
    | .ok out => .ok (out.map blank) := by
  have hfind : ((sorted es).map blank).find? (fun e => !e.fits size) =
      ((sorted es).find? fun e => !e.fits size).map blank := List.find?_map
  unfold arrange
  simp only [sorted_blank, hfind, overlap?_blank]
  cases (sorted es).find? fun e => !e.fits size with
  | some e => rfl
  | none => cases overlap? (sorted es) <;> rfl

/-- The ranges of a batch, once sorted, do not depend on its order. -/
theorem sorted_blank_perm (h : es.Perm fs) : sorted (es.map blank) = sorted (fs.map blank) := by
  have hperm : (sorted (es.map blank)).Perm (sorted (fs.map blank)) :=
    (perm_sorted _).trans ((h.map blank).trans (perm_sorted _).symm)
  refine hperm.eq_of_pairwise (fun a b ha hb hab hba => ?_) (pairwise_sorted _) (pairwise_sorted _)
  obtain ⟨x, -, rfl⟩ := List.mem_map.1 ((perm_sorted _).mem_iff.1 ha)
  obtain ⟨y, -, rfl⟩ := List.mem_map.1 ((perm_sorted _).mem_iff.1 hb)
  rw [le_iff] at hab hba
  simp only [blank] at hab hba
  rw [blank_eq_iff, SameRange]
  omega

/-- A permuted batch is accepted with the batch, or refused for the same ranges. -/
theorem arrange_perm (size : Nat) (h : es.Perm fs) :
    ((∃ out, arrange size es = .ok out) ∧ ∃ out, arrange size fs = .ok out) ∨
      ∃ r r', arrange size es = .error r ∧ arrange size fs = .error r' ∧ r.blank = r'.blank := by
  have hblank : arrange size (es.map blank) = arrange size (fs.map blank) := by
    simp only [arrange, sorted_blank_perm h]
  rw [arrange_blank, arrange_blank] at hblank
  cases hes : arrange size es with
  | ok out =>
    cases hfs : arrange size fs with
    | ok out' => exact Or.inl ⟨⟨out, rfl⟩, out', rfl⟩
    | error r' => simp [hes, hfs] at hblank
  | error r =>
    cases hfs : arrange size fs with
    | ok out' => simp [hes, hfs] at hblank
    | error r' => exact Or.inr ⟨r, r', rfl, rfl, by simpa [hes, hfs] using hblank⟩

theorem Accepted.separate_of_ne {a b : Edit} (h : Accepted size es) (ha : a ∈ es) (hb : b ∈ es) (hne : a ≠ b) :
    a.stop ≤ b.start ∨ b.stop ≤ a.start := by
  have hsymm : Std.Symm Separate := ⟨fun _ _ => Separate.symm⟩
  exact h.separate.forall ha hb hne

/-- Edits of an accepted batch that cover the same bytes cover none, unless they are the same edit. -/
theorem Accepted.eq_or_empty {a b : Edit} (h : Accepted size es) (ha : a ∈ es) (hb : b ∈ es) (hab : SameRange a b) :
    a = b ∨ a.start = a.stop := by
  by_cases heq : a = b
  · exact Or.inl heq
  · right
    have hsep := h.separate_of_ne ha hb heq
    have hfit := fits_iff.1 (h.fit a ha)
    unfold SameRange at hab
    omega

/-- The sorted batch does not depend on the order of the batch if insertions at one place are the same. -/
theorem sorted_perm (h : es.Perm fs) (hacc : Accepted size es)
    (hsame : ∀ a ∈ es, ∀ b ∈ es, a.start = a.stop → SameRange a b → a.replacement = b.replacement) :
    sorted es = sorted fs := by
  have hperm : (sorted es).Perm (sorted fs) := (perm_sorted es).trans (h.trans (perm_sorted fs).symm)
  refine hperm.eq_of_pairwise (fun a b ha hb hab hba => ?_) (pairwise_sorted es) (pairwise_sorted fs)
  have ha' : a ∈ es := (perm_sorted es).mem_iff.1 ha
  have hb' : b ∈ es := h.mem_iff.2 ((perm_sorted fs).mem_iff.1 hb)
  rw [le_iff] at hab hba
  have hrange : SameRange a b := by
    unfold SameRange
    omega
  rcases hacc.eq_or_empty ha' hb' hrange with heq | hempty
  · exact heq
  · have hreplacement := hsame a ha' b hb' hempty hrange
    obtain ⟨hstart, hstop⟩ := hrange
    cases a
    cases b
    simp_all

/-- A part of the batch that has all edits of a range. -/
theorem filter_spans_of_has {a b : Int} {q : Edit → Bool} (hq : ∀ e : Edit, e.spans a b = true → q e = true)
    (es : List Edit) : (es.filter q).filter (spans a b) = es.filter (spans a b) := by
  rw [List.filter_filter]
  refine List.filter_congr fun e _ => ?_
  cases hs : e.spans a b with
  | false => rfl
  | true => simp [hq e hs]

/-- A part of the batch that has no edit of a range. -/
theorem filter_spans_of_lacks {a b : Int} {q : Edit → Bool} (hq : ∀ e : Edit, e.spans a b = true → q e = false)
    (es : List Edit) : (es.filter q).filter (spans a b) = [] := by
  rw [List.filter_filter, List.filter_eq_nil_iff]
  intro e _
  cases hs : e.spans a b with
  | false => simp
  | true => simp [hq e hs]

/-- Parting a batch by ranges does not change its order once sorted. -/
theorem sorted_partition (p : Edit → Bool) (hp : ∀ a b, SameRange a b → p a = p b) (es : List Edit) :
    sorted es = sorted (es.filter p ++ es.filter fun e => !p e) := by
  refine sorted_congr fun a b => ?_
  have hrange : ∀ e : Edit, e.spans a b = true → p e = p ⟨a, b, ""⟩ := fun e he => hp _ _ (spans_iff.1 he)
  rw [List.filter_append]
  -- the edits of one range are all in one part
  cases hab : p ⟨a, b, ""⟩ with
  | true =>
    have hnot : ∀ e : Edit, e.spans a b = true → (!p e) = false := fun e he => by simp [hrange e he, hab]
    rw [filter_spans_of_has fun e he => (hrange e he).trans hab, filter_spans_of_lacks hnot, List.append_nil]
  | false =>
    have hnot : ∀ e : Edit, e.spans a b = true → (!p e) = true := fun e he => by simp [hrange e he, hab]
    rw [filter_spans_of_lacks fun e he => (hrange e he).trans hab, filter_spans_of_has hnot, List.nil_append]

theorem Accepted.filter (h : Accepted size es) (p : Edit → Bool) : Accepted size (es.filter p) :=
  ⟨fun e he => h.fit e (List.mem_filter.1 he).1, h.separate.filter p⟩

/-- Accepted edits that lie between two offsets stand in line between them. -/
theorem Accepted.line_between {lo hi : Int} (h : Accepted size es) (hle : lo ≤ hi)
    (hes : ∀ e ∈ es, lo ≤ e.start ∧ e.stop ≤ hi) : Line lo hi (sorted es) := by
  refine line_of_pairwise hle (fun e he => ?_) (accepted_iff_line.1 h).pairwise
  have hmem := (perm_sorted es).mem_iff.1 he
  have hfit := fits_iff.1 (h.fit e hmem)
  have hbounds := hes e hmem
  omega

/-- No accepted edit covers the place of an insertion. -/
theorem Accepted.clear_insertion {k : Int} (h : Accepted size es) (hk : ∃ e ∈ es, e.spans k k = true) {e : Edit}
    (he : e ∈ es) : e.stop ≤ k ∨ k ≤ e.start := by
  obtain ⟨i, hi, hspans⟩ := hk
  obtain ⟨h1, h2⟩ := spans_iff.1 hspans
  by_cases heq : e = i
  · subst heq
    omega
  · have hsep := h.separate_of_ne he hi heq
    omega

/-- The sorted batch around the place of an insertion. -/
theorem Accepted.sorted_around {k : Int} (h : Accepted size es) (hk : ∃ e ∈ es, e.spans k k = true) :
    sorted es = sorted (es.filter fun e => e.start < k) ++
      (es.filter (spans k k) ++ sorted (es.filter fun e => k < e.stop)) := by
  have hclear : ∀ e ∈ es, e.stop ≤ k ∨ k ≤ e.start := fun e he => h.clear_insertion hk he
  have hfit : ∀ e ∈ es, e.start ≤ e.stop := fun e he => (fits_iff.1 (h.fit e he)).2.2
  have hat : (es.filter fun e => !decide (e.start < k)).filter (spans k k) = es.filter (spans k k) :=
    filter_spans_of_has (fun e he => by simp [(spans_iff.1 he).1]) es
  have hbehind : (es.filter fun e => !decide (e.start < k)).filter (fun e => !e.spans k k) =
      es.filter fun e => k < e.stop := by
    rw [List.filter_filter]
    refine List.filter_congr fun e he => ?_
    have h1 := hclear e he
    have h2 := hfit e he
    rw [Bool.eq_iff_iff]
    simp only [Bool.and_eq_true, Bool.not_eq_true', decide_eq_true_eq, ← Bool.not_eq_true, spans_iff]
    omega
  have hback : sorted (es.filter fun e => !decide (e.start < k)) =
      es.filter (spans k k) ++ sorted (es.filter fun e => k < e.stop) := by
    rw [sorted_partition (spans k k) (fun a b hab => by simp only [spans, hab.1, hab.2]), hat, hbehind, sorted_append,
      sorted_ties]
    intro a ha b hb
    obtain ⟨h1, h2⟩ := spans_iff.1 (List.mem_filter.1 ha).2
    obtain ⟨hmem, hlt⟩ := List.mem_filter.1 hb
    have h3 := hclear b hmem
    have h4 : k < b.stop := by simpa using hlt
    rw [le_iff]
    omega
  rw [sorted_partition (fun e => e.start < k) (fun a b hab => by simp only [hab.1]), sorted_append, hback]
  intro a ha b hb
  have h1 : a.start < k := by simpa using (List.mem_filter.1 ha).2
  have h2 : ¬ b.start < k := by simpa using (List.mem_filter.1 hb).2
  rw [le_iff]
  omega

/-- The edits before an insertion, those at its place and those behind it stand in line. -/
theorem Accepted.lines_around {k : Int} (h : Accepted size es) (hk : ∃ e ∈ es, e.spans k k = true) :
    Line 0 k (sorted (es.filter fun e => e.start < k)) ∧ Line k k (es.filter (spans k k)) ∧
      Line k size (sorted (es.filter fun e => k < e.stop)) := by
  have hclear : ∀ e ∈ es, e.stop ≤ k ∨ k ≤ e.start := fun e he => h.clear_insertion hk he
  have hfit : ∀ e ∈ es, 0 ≤ e.start ∧ e.stop ≤ size ∧ e.start ≤ e.stop := fun e he => fits_iff.1 (h.fit e he)
  obtain ⟨i, hi, hspans⟩ := hk
  have hplace := spans_iff.1 hspans
  have hbounds := hfit i hi
  refine ⟨?_, ?_, ?_⟩
  · refine (h.filter _).line_between (by omega) fun e he => ?_
    obtain ⟨hmem, hlt⟩ := List.mem_filter.1 he
    have h1 := hclear e hmem
    have h2 := hfit e hmem
    have h3 : e.start < k := by simpa using hlt
    omega
  · rw [← sorted_ties]
    refine (h.filter _).line_between (Int.le_refl k) fun e he => ?_
    have h1 := spans_iff.1 (List.mem_filter.1 he).2
    omega
  · refine (h.filter _).line_between (by omega) fun e he => ?_
    obtain ⟨hmem, hlt⟩ := List.mem_filter.1 he
    have h1 := hclear e hmem
    have h2 := hfit e hmem
    have h3 : k < e.stop := by simpa using hlt
    omega

theorem foldr_splice_insertions {k : Int} (h : ∀ e ∈ es, e.spans k k = true) (text : Bytes) :
    (es.map (shift (-k))).foldr splice text = es.flatMap (fun e => Bytes.ofString e.replacement) ++ text := by
  induction es with
  | nil => rfl
  | cons e es ih =>
    obtain ⟨h1, h2⟩ := spans_iff.1 (h e (by simp))
    rw [List.map_cons, List.foldr_cons, ih fun a ha => h a (by simp [ha]), splice, shift, h1, h2, Int.add_right_neg]
    simp

/-- Insertions at one place are written behind the edits before it and ahead of those behind it, in the order of the
batch. -/
theorem apply_insertions {out : Bytes} {k : Int} (h : apply source es = .ok out) (hk : ∃ e ∈ es, e.spans k k = true) :
    ∃ before behind, apply (source.take k.toNat) (es.filter fun e => e.start < k) = .ok before ∧
      apply (source.drop k.toNat) ((es.filter fun e => k < e.stop).map (shift (-k))) = .ok behind ∧
      out = before ++ ((es.filter (spans k k)).flatMap (fun e => Bytes.ofString e.replacement) ++ behind) := by
  have hacc : Accepted source.length es := apply_eq_ok_iff.1 ⟨out, h⟩
  obtain ⟨hfront, hat, hback⟩ := hacc.lines_around hk
  have hlen := Bytes.length_front hfront.le hback.le
  have hbehind : Line 0 (source.drop k.toNat).length (sorted ((es.filter fun e => k < e.stop).map (shift (-k)))) := by
    rw [sorted_map_shift]
    refine hback.rebase ?_
    rw [List.length_drop]
    omega
  have hrest : Line (source.take k.toNat).length (source.take k.toNat ++ source.drop k.toNat).length
      (es.filter (spans k k) ++ sorted (es.filter fun e => k < e.stop)) := by
    rw [hlen, List.take_append_drop]
    exact hat.append hback
  have hbefore := hfront.widen (Int.le_refl 0) (Int.le_of_eq hlen.symm)
  have hcut := foldr_splice_cut hbefore hrest
  rw [List.take_append_drop, ← hacc.sorted_around hk, hlen, List.map_append, List.foldr_append,
    foldr_splice_insertions fun e he => (List.mem_filter.1 he).2, ← sorted_map_shift] at hcut
  exact ⟨_, _, apply_of_sorted hbefore, apply_of_sorted hbehind, (apply_eq_ok h).2.trans hcut⟩

/-- The order of a batch decides neither whether it is refused nor with which message: permuted batches are both applied,
or both refused for an edit outside the source or both for an overlap, at the same ranges. The results are the same
unless there are different insertions at one place. These are written in the order of the batch, behind what the edits
before that place make and ahead of what those behind it make. -/
theorem apply_perm (source : Bytes) (es fs : List Edit) (h : es.Perm fs) :
    (((∃ out, apply source es = .ok out) ∧ ∃ out, apply source fs = .ok out) ∨
        (∃ a a', apply source es = .error (.outside a) ∧ apply source fs = .error (.outside a') ∧
          SameRange a a' ∧ (Refusal.outside a).message = (Refusal.outside a').message) ∨
        ∃ a b a' b', apply source es = .error (.overlap a b) ∧ apply source fs = .error (.overlap a' b') ∧
          SameRange a a' ∧ SameRange b b' ∧ (Refusal.overlap a b).message = (Refusal.overlap a' b').message) ∧
      ((∀ a ∈ es, ∀ b ∈ es, a.start = a.stop → SameRange a b → a.replacement = b.replacement) →
        ∀ out out', apply source es = .ok out → apply source fs = .ok out' → out = out') ∧
      ∀ out k, apply source es = .ok out → (∃ e ∈ es, e.spans k k = true) →
        ∃ before behind, apply (source.take k.toNat) (es.filter fun e => e.start < k) = .ok before ∧
          apply (source.drop k.toNat) ((es.filter fun e => k < e.stop).map (shift (-k))) = .ok behind ∧
          out = before ++ ((es.filter (spans k k)).flatMap (fun e => Bytes.ofString e.replacement) ++ behind) := by
  refine ⟨?_, fun hsame out out' hes hfs => ?_, fun out k => apply_insertions⟩
  · rcases arrange_perm source.length h with ⟨⟨xs, hxs⟩, ys, hys⟩ | ⟨r, r', hr, hr', hblank⟩
    · refine Or.inl ⟨⟨xs.foldr splice source, ?_⟩, ys.foldr splice source, ?_⟩
      · simp only [apply, hxs]
      · simp only [apply, hys]
    · right
      have hmessage : r.message = r'.message := by rw [← r.message_blank, ← r'.message_blank, hblank]
      have hes : apply source es = .error r := by simp only [apply, hr]
      have hfs : apply source fs = .error r' := by simp only [apply, hr']
      cases r <;> cases r' <;> simp only [Refusal.blank, reduceCtorEq, Refusal.outside.injEq, Refusal.overlap.injEq,
        blank_eq_iff] at hblank
      · exact Or.inl ⟨_, _, hes, hfs, hblank, hmessage⟩
      · exact Or.inr ⟨_, _, _, _, hes, hfs, hblank.1, hblank.2, hmessage⟩
  · have hacc : Accepted source.length es := apply_eq_ok_iff.1 ⟨out, hes⟩
    rw [apply_congr (sorted_perm h hacc hsame), hfs] at hes
    simpa using hes.symm

/-- Two insertions at one place, with the edit before them in between. -/
def tiedBatch : List Edit := [⟨1, 1, "x"⟩, ⟨0, 1, "y"⟩, ⟨1, 1, "z"⟩]

def tiedBatchTurned : List Edit := [⟨1, 1, "z"⟩, ⟨0, 1, "y"⟩, ⟨1, 1, "x"⟩]

theorem apply_perm_tied : tiedBatch.Perm tiedBatchTurned ∧
    apply (Bytes.ofString "abc") tiedBatch = .ok (Bytes.ofString "yxzbc") ∧
    apply (Bytes.ofString "abc") tiedBatchTurned = .ok (Bytes.ofString "yzxbc") ∧
    ∃ before behind, apply (Bytes.ofString "a") [⟨0, 1, "y"⟩] = .ok before ∧ apply (Bytes.ofString "bc") [] = .ok behind ∧
      Bytes.ofString "yxzbc" = before ++ (Bytes.ofString "xz" ++ behind) := by
  have hperm : tiedBatch.Perm tiedBatchTurned := by decide
  have hbatch : apply (Bytes.ofString "abc") tiedBatch = .ok (Bytes.ofString "yxzbc") := by
    rw [tiedBatch, apply_congr (sorted_swap (by decide) _), apply_of_line (by decide)]
    rfl
  have hturned : apply (Bytes.ofString "abc") tiedBatchTurned = .ok (Bytes.ofString "yzxbc") := by
    rw [tiedBatchTurned, apply_congr (sorted_swap (by decide) _), apply_of_line (by decide)]
    rfl
  have hbefore : (tiedBatch.filter fun e => e.start < 1) = [⟨0, 1, "y"⟩] := by decide
  have hbehind : (tiedBatch.filter fun e => 1 < e.stop) = [] := by decide
  have hinserted : (tiedBatch.filter (spans 1 1)).flatMap (fun e => Bytes.ofString e.replacement) = Bytes.ofString "xz" := rfl
  have hparts := (apply_perm _ _ _ hperm).2.2 _ 1 hbatch ⟨⟨1, 1, "x"⟩, by decide, by decide⟩
  rw [hbefore, hbehind, hinserted] at hparts
  exact ⟨hperm, hbatch, hturned, hparts⟩

end TimeLint.Edit
