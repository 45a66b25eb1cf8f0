import TimeLint.Proofs.RecordForm
import TimeLint.Proofs.Utf8
import TimeLint.Proofs.Writing

/-! Records as lines of bytes. Of the bytes written for a record only the last is a newline, so the lines divide the
output into records; and from the output the content of every record can be told. -/

namespace TimeLint

namespace Offense.Kind

theorem ofCode?_code (k : Kind) : ofCode? k.code = some k := by
  cases k <;> decide

theorem code_inj {k l : Kind} : k.code = l.code ↔ k = l := by
  constructor
  · intro h
    have hk := ofCode?_code k
    rw [h, ofCode?_code l] at hk
    exact (Option.some.inj hk).symm
  · exact congrArg code

end Offense.Kind

namespace Report

variable {r s : Record} {rs ss : List Record}

/-- What a record tells: path, rule, kind, message, the lines and columns, and whether the offense can be corrected. -/
def Record.content (r : Record) : String × String × Offense.Kind × String × Int × Int × Int × Int × Bool :=
  (r.path, r.diagnostic.rule, r.diagnostic.kind, r.diagnostic.message, r.diagnostic.range.startLine,
    r.diagnostic.range.startColumn, r.diagnostic.range.endLine, r.diagnostic.range.endColumn, r.diagnostic.correctable)

theorem Record.fields_eq_iff : r.fields = s.fields ↔ r.content = s.content := by
  simp only [fields, content, List.cons.injEq, Prod.mk.injEq, Scalar.bool.injEq, Scalar.int.injEq, Scalar.text.injEq,
    Offense.Kind.code_inj, true_and, and_true]
  tauto

def Record.line (r : Record) : String := r.object ++ "\n"

/-- The first record of a text of lines can be split off it. -/
theorem Record.line_split {x y : List Char} (h : r.line.toList ++ x = s.line.toList ++ y) : r.content = s.content ∧ x = y := by
  simp only [line, String.toList_append, List.append_assoc] at h
  obtain ⟨hfields, hrest⟩ := object_split h
  exact ⟨fields_eq_iff.1 hfields, List.append_cancel_left hrest⟩

theorem Record.line_congr (h : r.content = s.content) : r.line = s.line := by
  rw [line, line, object, object, fields_eq_iff.2 h]

theorem lines_eq_iff : rs.flatMap (·.line.toList) = ss.flatMap (·.line.toList) ↔
    rs.map Record.content = ss.map Record.content := by
  induction rs generalizing ss with
  | nil => cases ss <;> simp [Record.line]
  | cons r rs ih =>
    cases ss with
    | nil => simp [Record.line]
    | cons s ss =>
      rw [List.flatMap_cons, List.flatMap_cons, List.map_cons, List.map_cons, List.cons.injEq, ← ih]
      constructor
      · exact Record.line_split
      · rintro ⟨hcontent, hrest⟩
        rw [Record.line_congr hcontent, hrest]

/-- The bytes of a record's line: those of the record, none of which is a newline, and a newline. -/
theorem Record.line_bytes (r : Record) : Bytes.ofString r.line = Bytes.ofString r.object ++ [10] ∧
    10 ∉ Bytes.ofString r.object := by
  rw [line, Bytes.ofString_append, Bytes.newline_mem_ofString]
  exact ⟨rfl, r.object_no_newline⟩

theorem count_newline (rs : List Record) : (rs.flatMap fun r => Bytes.ofString r.line).count 10 = rs.length := by
  induction rs with
  | nil => rfl
  | cons r rs ih =>
    obtain ⟨hline, hobject⟩ := r.line_bytes
    rw [List.flatMap_cons, List.count_append, ih, hline, List.count_append, List.count_eq_zero_of_not_mem hobject,
      List.length_cons, Nat.add_comm]
    rfl

/-- If all lines and columns fit, the bytes of the output are those of the records, each with a newline behind it
and none inside, one newline for each diagnostic. And two outputs are equal exactly if the records tell the same, in
the same order. -/
theorem output_framed_and_faithful (first second : List FileReport) (hfirst : AllSized first) (hsecond : AllSized second) :
    Bytes.ofString (write .jsonl first).output = (records first).flatMap (fun r => Bytes.ofString r.object ++ [10]) ∧
    (∀ r ∈ records first, 10 ∉ Bytes.ofString r.object) ∧
    (Bytes.ofString (write .jsonl first).output).count 10 = (first.flatMap (·.diagnostics)).length ∧
    (Bytes.ofString (write .jsonl first).output = Bytes.ofString (write .jsonl second).output ↔
      (records first).map Record.content = (records second).map Record.content) := by
  have hbytes : Bytes.ofString (write .jsonl first).output = (records first).flatMap fun r => Bytes.ofString r.line := by
    rw [write_jsonl hfirst, Bytes.ofString_join, List.flatMap_map]
    rfl
  have hchars : ∀ {reports : List FileReport}, AllSized reports →
      (write .jsonl reports).output.toList = (records reports).flatMap (·.line.toList) := by
    intro reports h
    rw [write_jsonl h, String.toList_join, List.flatMap_map]
    rfl
  refine ⟨?_, fun r _ => r.line_bytes.2, ?_, ?_⟩
  · simp only [hbytes, Record.line_bytes]
  · rw [hbytes, count_newline, length_records]
  · rw [Bytes.ofString_inj, ← String.toList_inj, hchars hfirst, hchars hsecond, lines_eq_iff]

/-- A name with a quote, a backslash, a newline, a control character and a character that is not ASCII. -/
def awkwardName : String := "a\"\\\n\x01é.rb"

def apart : List FileReport :=
  [{ path := awkwardName, diagnostics := [mention 1], corrected := 1 }, { path := awkwardName, diagnostics := [mention (-1)] }]

def together : List FileReport := [{ path := awkwardName, diagnostics := [mention 1, mention (-1)] }]

/-- Two diagnostics of one file are written alike in two reports and in one, with two newlines. -/
theorem apart_written_as_together : AllSized apart ∧ AllSized together ∧ apart ≠ together ∧
    Bytes.ofString (write .jsonl apart).output = Bytes.ofString (write .jsonl together).output ∧
    (Bytes.ofString (write .jsonl apart).output).count 10 = 2 := by
  have hapart : AllSized apart := by decide
  have htogether : AllSized together := by decide
  obtain ⟨-, -, hcount, hequal⟩ := output_framed_and_faithful apart together hapart htogether
  exact ⟨hapart, htogether, by decide, hequal.2 rfl, hcount⟩

end Report

end TimeLint
