import Mathlib.Data.List.Basic
import TimeLint.Run

/-! Writing as it goes. The loop over reports and their diagnostics is one loop over records; a turn of it appends a
whole line and counts it, or ends the loop with nothing added. So what is written at any time is the lines of the
records before, and the loop ends early exactly at the first record that has no form. -/

namespace TimeLint

theorem Run.offenseCount_eq (reports : List FileReport) (failed : List String) :
    Result.offenseCount ⟨reports, failed⟩ = (reports.flatMap (·.diagnostics)).length := by
  have hsum : ∀ n : Nat, reports.foldl (fun n f => n + f.diagnostics.length) n =
      n + (reports.flatMap (·.diagnostics)).length := by
    induction reports with
    | nil => exact fun n => rfl
    | cons report reports ih =>
      intro n
      rw [List.foldl_cons, ih, List.flatMap_cons, List.length_append, Nat.add_assoc]
  rw [Result.offenseCount, hsum, Nat.zero_add]

/-- The lines and columns fit in sixty-four bits, with a sign or without. -/
def Diagnostic.Sized (d : Diagnostic) : Prop :=
  ∀ n ∈ [d.range.startLine, d.range.startColumn, d.range.endLine, d.range.endColumn],
    -9223372036854775808 ≤ n ∧ n ≤ 18446744073709551615

instance (d : Diagnostic) : Decidable d.Sized := inferInstanceAs (Decidable (∀ n ∈ _, _))

namespace Report

variable {format : Format} {reports : List FileReport} {rs xs ys : List Record} {r : Record} {s : Sink}

theorem records_cons (report : FileReport) (reports : List FileReport) :
    records (report :: reports) = report.diagnostics.map (⟨report.path, ·⟩) ++ records reports := by
  rw [records, records, List.flatMap_cons]

/-- The two loops are one loop over the records. -/
theorem foldlM_addReport (reports : List FileReport) (s : Sink) :
    reports.foldlM (Sink.addReport format) s = (records reports).foldlM (Sink.add format) s := by
  induction reports generalizing s with
  | nil => rfl
  | cons report reports ih =>
    rw [records_cons, List.foldlM_append, List.foldlM_map, List.foldlM_cons]
    exact bind_congr ih

/-- What is written depends on the records alone, not on how they are spread over reports. -/
theorem write_congr {reports more : List FileReport} (h : records reports = records more) :
    write format reports = write format more := by
  rw [write, foldlM_addReport, h, ← foldlM_addReport]
  rfl

/-- The lines of the records that have a form. -/
def Format.lines (format : Format) (rs : List Record) : String := String.join ((rs.filterMap format.form).map (· ++ "\n"))

theorem Format.lines_append (format : Format) (xs ys : List Record) :
    format.lines (xs ++ ys) = format.lines xs ++ format.lines ys := by
  rw [lines, List.filterMap_append, List.map_append, String.join_append, lines, lines]

/-- A turn of the loop: a whole line more, and one record more. -/
theorem add_of_form {text : String} (h : format.form r = some text) :
    s.add format r = .ok ⟨s.output ++ format.lines [r], s.count + 1⟩ := by
  simp [Sink.add, h, Sink.put, Format.lines, String.append_assoc]

theorem foldlM_add (h : ∀ r ∈ rs, (format.form r).isSome = true) (s : Sink) :
    rs.foldlM (Sink.add format) s = .ok ⟨s.output ++ format.lines rs, s.count + rs.length⟩ := by
  induction rs generalizing s with
  | nil => simp [Format.lines, pure, Except.pure]
  | cons r rs ih =>
    obtain ⟨text, htext⟩ := Option.isSome_iff_exists.1 (h r List.mem_cons_self)
    rw [List.foldlM_cons, add_of_form htext]
    have hlines : format.lines (r :: rs) = format.lines [r] ++ format.lines rs := format.lines_append [r] rs
    rw [hlines, ← String.append_assoc, List.length_cons, Nat.add_comm rs.length, ← Nat.add_assoc]
    exact ih (fun x hx => h x (List.mem_cons_of_mem r hx)) _

theorem write_of_forms (h : ∀ r ∈ records reports, (format.form r).isSome = true) :
    write format reports = ⟨format.lines (records reports), some (records reports).length⟩ := by
  rw [write, foldlM_addReport, foldlM_add h]
  simp

theorem write_text (reports : List FileReport) :
    write .text reports = ⟨Format.text.lines (records reports), some (records reports).length⟩ :=
  write_of_forms fun _ _ => rfl

theorem fits_int {n : Int} : (Scalar.int n).fits = true ↔ -9223372036854775808 ≤ n ∧ n ≤ 18446744073709551615 := by
  have hlow : Int.pow 2 63 = 9223372036854775808 := rfl
  have hhigh : Int.pow 2 64 = 18446744073709551616 := rfl
  simp only [Scalar.fits, hlow, hhigh, Bool.and_eq_true, decide_eq_true_eq]
  omega

theorem fits_iff : r.fits = true ↔ r.diagnostic.Sized := by
  have hversion : (Scalar.int Offense.schemaVersion).fits = true := rfl
  have hbool : ∀ b : Bool, (Scalar.bool b).fits = true := fun _ => rfl
  have htext : ∀ t : String, (Scalar.text t).fits = true := fun _ => rfl
  simp only [Record.fits, Record.fields, List.all_cons, List.all_nil, Bool.and_eq_true, hversion, hbool, htext, fits_int,
    Diagnostic.Sized, List.forall_mem_cons, List.not_mem_nil, true_and, and_true, false_implies, implies_true]
  omega

theorem form_jsonl_isSome_iff : (Format.jsonl.form r).isSome = true ↔ r.diagnostic.Sized := by
  rw [Format.form, Record.object?, ← fits_iff]
  cases r.fits <;> simp

/-- All lines and columns of the reports fit. -/
def AllSized (reports : List FileReport) : Prop := ∀ report ∈ reports, ∀ d ∈ report.diagnostics, d.Sized

instance (reports : List FileReport) : Decidable (AllSized reports) :=
  inferInstanceAs (Decidable (∀ report ∈ reports, ∀ d ∈ report.diagnostics, _))

theorem sized_of_mem_records (h : AllSized reports) (hr : r ∈ records reports) : r.diagnostic.Sized := by
  obtain ⟨report, hreport, hmap⟩ := List.mem_flatMap.1 hr
  obtain ⟨d, hd, rfl⟩ := List.mem_map.1 hmap
  exact h report hreport d hd

theorem length_records (reports : List FileReport) :
    (records reports).length = (reports.flatMap (·.diagnostics)).length := by
  induction reports with
  | nil => rfl
  | cons report reports ih =>
    rw [records_cons, List.flatMap_cons, List.length_append, List.length_append, List.length_map, ih]

theorem lines_jsonl (h : ∀ r ∈ rs, r.diagnostic.Sized) :
    Format.jsonl.lines rs = String.join (rs.map fun r => r.object ++ "\n") := by
  have hforms : rs.filterMap Format.jsonl.form = rs.map Record.object := by
    rw [← List.filterMap_eq_map]
    refine List.filterMap_congr fun r hr => ?_
    rw [Format.form, Record.object?, if_pos (fits_iff.2 (h r hr))]
    rfl
  rw [Format.lines, hforms, List.map_map]
  rfl

/-- If all fits, each record is written with a newline behind it, and counted. -/
theorem write_jsonl (h : AllSized reports) : write .jsonl reports =
    ⟨String.join ((records reports).map fun r => r.object ++ "\n"), some (reports.flatMap (·.diagnostics)).length⟩ := by
  have hrecords : ∀ r ∈ records reports, r.diagnostic.Sized := fun r hr => sized_of_mem_records h hr
  rw [write_of_forms fun r hr => form_jsonl_isSome_iff.2 (hrecords r hr), lines_jsonl hrecords, length_records]

/-- A reference to the constant alone, on a given line. -/
def mention (line : Int) : Diagnostic :=
  { range := ⟨0, 7, line, 1, line, 8⟩, message := Offense.Kind.genericUsage.message, kind := .genericUsage,
    rule := Offense.rule, correctable := false }

end Report

end TimeLint
