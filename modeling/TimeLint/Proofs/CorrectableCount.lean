import TimeLint.Proofs.CallReading
import TimeLint.Proofs.RecordForm
import TimeLint.Proofs.SecondRun
import TimeLint.Proofs.Writing

/-! Corrections counted. Each reference gets one verdict, and the verdict decides both whether it is reported as
correctable and which edit is made for it, so the correctable diagnostics and the edits are one list seen twice. The
count of corrections in a file is then the number of marked lines that a check of the file prints. -/

namespace TimeLint

namespace Report

/-- Numbers and the colons around them. -/
def isPosition (c : Char) : Bool := c == ':' || c == '-' || c.isDigit

/-- The line bears the mark of a correctable offense behind the path and the position. -/
def marked (path line : String) : Bool :=
  " [Correctable] ".toList.isPrefixOf ((line.toList.drop path.length).dropWhile isPosition)

theorem isPosition_of_mem_number {n : Int} {c : Char} (h : c ∈ (toString n).toList) : isPosition c = true := by
  have hnumeral := isNumeral_of_mem_number h
  rw [isNumeral] at hnumeral
  rw [isPosition, Bool.or_assoc, hnumeral, Bool.or_true]

/-- The lines of the correctable offenses are those with the mark. -/
theorem marked_text {r : Record} (h : r.diagnostic.rule = Offense.rule) : marked r.path r.text = r.diagnostic.correctable := by
  have hline : r.text.toList = r.path.toList ++
      ((':' :: (toString r.diagnostic.range.startLine).toList ++ ':' :: (toString r.diagnostic.range.startColumn).toList ++
        [':']) ++ ' ' :: ((if r.diagnostic.correctable then "[Correctable] " else "").toList ++ Offense.rule.toList ++
          ": ".toList ++ r.diagnostic.message.toList)) := by
    simp [Record.text, h]
  have hposition : ∀ c ∈ ':' :: (toString r.diagnostic.range.startLine).toList ++
      ':' :: (toString r.diagnostic.range.startColumn).toList ++ [':'], isPosition c = true := by
    intro c hc
    simp only [List.mem_append, List.mem_cons, List.not_mem_nil, or_false] at hc
    rcases hc with ((rfl | hc) | (rfl | hc)) | rfl
    · rfl
    · exact isPosition_of_mem_number hc
    · rfl
    · exact isPosition_of_mem_number hc
    · rfl
  have hblank : isPosition ' ' = false := rfl
  rw [marked, hline, ← String.length_toList, List.drop_left, List.dropWhile_append_of_pos hposition,
    List.dropWhile_cons_of_neg (by simp [hblank])]
  cases r.diagnostic.correctable with
  | true => simp
  | false => rfl

end Report

namespace Offense

open Cursor

/-- Kinds with the correction that goes with them. -/
def verdicts : List (Kind × Correction) :=
  [(.noArgBareCall, .freezeTime), (.callWithArguments, .none), (.returnCall, .travelBack), (.returnCall, .none),
   (.travelCall, .none), (.genericUsage, .none)]

theorem classify_mem_verdicts (s : Shape) : classify s ∈ verdicts := by
  unfold classify verdicts
  split
  · split <;> simp
  · cases s.hasBlock <;> simp
  · simp
  · simp

/-- The edit starts where the offense is reported and writes what the kind of the offense asks for. -/
def Pairs (d : Diagnostic) (e : Edit) : Prop :=
  e.start = d.range.start ∧
    (d.kind = .noArgBareCall ∧ e.replacement = "freeze_time" ∨ d.kind = .returnCall ∧ e.replacement = "travel_back")

theorem pairs_of_edit {r : Reference} {e : Edit} (h : r.edit = some e) : Pairs r.diagnostic e := by
  obtain ⟨call, token, hcall, htoken, rfl⟩ := edit_eq_some_iff.1 h
  have hstart : r.diagnostic.range.start = r.node.start := by
    simp [Reference.diagnostic, Reference.range, hcall, rangeOf]
  have hkind : r.diagnostic.kind = (classify r.shape).1 := rfl
  have hverdict := classify_mem_verdicts r.shape
  rw [Pairs, hstart, hkind]
  refine ⟨rfl, ?_⟩
  generalize classify r.shape = v at hverdict htoken ⊢
  simp only [verdicts, List.mem_cons, List.not_mem_nil, or_false] at hverdict
  rcases hverdict with rfl | rfl | rfl | rfl | rfl | rfl
  · exact Or.inl ⟨rfl, (Option.some.inj htoken).symm⟩
  · cases htoken
  · exact Or.inr ⟨rfl, (Option.some.inj htoken).symm⟩
  · cases htoken
  · cases htoken
  · cases htoken

/-- Of each kind but one, all offenses are correctable or none is. -/
theorem correctable_by_kind (r : Reference) : (r.diagnostic.kind = .noArgBareCall → r.diagnostic.correctable = true) ∧
    (r.diagnostic.kind ∈ [.callWithArguments, .travelCall, .genericUsage] → r.diagnostic.correctable = false) := by
  have hkind : r.diagnostic.kind = (classify r.shape).1 := rfl
  have hcorrectable : r.diagnostic.correctable = ((classify r.shape).2 != .none) := rfl
  have hverdict := classify_mem_verdicts r.shape
  rw [hkind, hcorrectable]
  generalize classify r.shape = v at hverdict ⊢
  simp only [verdicts, List.mem_cons, List.not_mem_nil, or_false] at hverdict
  rcases hverdict with rfl | rfl | rfl | rfl | rfl | rfl <;> decide

theorem forall₂_pairs (rs : List Reference) :
    List.Forall₂ Pairs ((rs.map (·.diagnostic)).filter (·.correctable)) (rs.filterMap (·.edit)) := by
  induction rs with
  | nil => exact .nil
  | cons r rs ih =>
    have hcorrectable := correctable_eq r
    cases hedit : r.edit with
    | none =>
      rw [hedit] at hcorrectable
      rw [List.map_cons, List.filter_cons_of_neg (by simp [hcorrectable]), List.filterMap_cons_none hedit]
      exact ih
    | some e =>
      rw [hedit] at hcorrectable
      rw [List.map_cons, List.filter_cons_of_pos (by simp [hcorrectable]), List.filterMap_cons_some hedit]
      exact .cons (pairs_of_edit hedit) ih

/-- One diagnostic for each place at which a reference is found. -/
theorem forall₂_reported (source : Bytes) (cs : List Cursor) :
    List.Forall₂ (fun c d => ∃ r, reference? source c = some r ∧ d = r.diagnostic)
      (cs.filter fun c => (reference? source c).isSome) (cs.filterMap (reported source)) := by
  induction cs with
  | nil => exact .nil
  | cons c cs ih =>
    cases href : reference? source c with
    | none =>
      rw [List.filter_cons_of_neg (by simp [href]), List.filterMap_cons_none (by simp [reported, href])]
      exact ih
    | some r =>
      have hreported : reported source c = some r.diagnostic := by simp [reported, href]
      rw [List.filter_cons_of_pos (by simp [href]), List.filterMap_cons_some hreported]
      exact .cons ⟨r, href, rfl⟩ ih

theorem rule_of_mem_diagnostics {source : Bytes} {tree : Node} {d : Diagnostic} (h : d ∈ (checkTree source tree).diagnostics) :
    d.rule = rule := by
  obtain ⟨r, -, rfl⟩ := List.mem_map.1 h
  rfl

end Offense

namespace Run

open Offense

variable {parse : Parser} {d d' : Disk} {path : Path} {name : String} {report : FileReport}

/-- The lines that are printed for a report. -/
def linesOf (report : FileReport) : List String := (Report.records [report]).map (·.text)

/-- The marked lines of a checked text are as many as its edits. -/
theorem count_marked (name : String) (source : Bytes) (tree : Node) :
    (linesOf { path := name, diagnostics := (checkTree source tree).diagnostics }).countP (Report.marked name) =
      (checkTree source tree).edits.length := by
  have hlines : linesOf { path := name, diagnostics := (checkTree source tree).diagnostics } =
      (checkTree source tree).diagnostics.map fun d => Report.Record.text ⟨name, d⟩ := by
    simp [linesOf, Report.records]
  have hmarked : ∀ d ∈ (checkTree source tree).diagnostics,
      Report.marked name (Report.Record.text ⟨name, d⟩) = d.correctable := fun d hd =>
    Report.marked_text (r := ⟨name, d⟩) (rule_of_mem_diagnostics hd)
  have hpaired : List.Forall₂ Pairs ((checkTree source tree).diagnostics.filter (·.correctable))
      (checkTree source tree).edits := forall₂_pairs (references source tree)
  rw [hlines, List.countP_map, ← hpaired.length_eq, ← List.countP_eq_length_filter]
  refine List.countP_congr fun d hd => ?_
  rw [Function.comp_apply, hmarked d hd]

/-- A file that was fixed was checked on what it held before, and so many edits were made as that text has. -/
theorem checkFile_corrected (h : checkFile parse true d path name = .ok (report, d')) :
    ∃ source, d.read path = .ok source ∧ (parse source).strict = .ok (parse source) ∧
      report.corrected = (checkTree source (parse source)).edits.length := by
  unfold checkFile at h
  obtain ⟨source, h1, h⟩ := bind_eq_ok.1 h
  obtain ⟨checked, h2, h⟩ := bind_eq_ok.1 h
  obtain ⟨hvalid, ⟨hnone, rfl⟩ | ⟨-, after, -, rfl⟩⟩ := checkBytes_eq_ok h2
  · obtain ⟨rfl, -⟩ : _ = report ∧ d = d' := by simpa [pure, Except.pure] using h
    have hempty : (checkTree source (parse source)).edits = [] := by simpa using hnone
    exact ⟨source, mapError_eq_ok.1 h1, hvalid, by simp [hempty]⟩
  · obtain ⟨rfl, -⟩ : _ = report ∧ d.write path after = d' := by simpa [pure, Except.pure] using h
    exact ⟨source, mapError_eq_ok.1 h1, hvalid, rfl⟩

/-- Checking a file instead of fixing it prints one marked line for each correction. -/
theorem corrected_eq_marked (h : checkFile parse true d path name = .ok (report, d')) :
    ∃ before, checkFile parse false d path name = .ok (before, d) ∧
      report.corrected = (linesOf before).countP (Report.marked name) := by
  obtain ⟨source, hread, hvalid, hcount⟩ := checkFile_corrected h
  have hreports : Reports parse d path { path := name, diagnostics := (checkTree source (parse source)).diagnostics } :=
    ⟨source, hread, hvalid, rfl⟩
  refine ⟨_, checkFile_of_reports hreports rfl, ?_⟩
  rw [hcount, ← count_marked name source (parse source)]
  rfl

theorem output_eq_lines (report : FileReport) :
    (Report.write .text [report]).output = String.join ((linesOf report).map (· ++ "\n")) := by
  have hforms : (Report.records [report]).filterMap Report.Format.text.form = linesOf report :=
    List.filterMap_eq_map ▸ rfl
  rw [Report.write_text, Report.Format.lines, hforms]

/-- The correctable diagnostics and the edits of a tree pair off in order. Of each kind but one, all offenses are
correctable or none is. Each place at which a reference is found is reported once, in pre-order. And the corrections of
a fixed file are as many as the marked lines that a check of the file prints. -/
theorem correctable_offenses_paired (source : Bytes) (tree : Node) :
    List.Forall₂ Pairs ((checkTree source tree).diagnostics.filter (·.correctable)) (checkTree source tree).edits ∧
    (∀ d ∈ (checkTree source tree).diagnostics, (d.kind = .noArgBareCall → d.correctable = true) ∧
      (d.kind ∈ [.callWithArguments, .travelCall, .genericUsage] → d.correctable = false)) ∧
    List.Forall₂ (fun c d => ∃ r, reference? source c = some r ∧ d = r.diagnostic)
      ((Cursor.preorder [] tree).filter fun c => (reference? source c).isSome) (checkTree source tree).diagnostics ∧
    ∀ (parse : Parser) (d d' : Disk) (path : Path) (name : String) (report : FileReport),
      checkFile parse true d path name = .ok (report, d') →
        ∃ before, checkFile parse false d path name = .ok (before, d) ∧
          (Report.write .text [before]).output = String.join ((linesOf before).map (· ++ "\n")) ∧
          report.corrected = (linesOf before).countP (Report.marked name) := by
  refine ⟨forall₂_pairs (references source tree), fun d hd => ?_, ?_, ?_⟩
  · obtain ⟨r, -, rfl⟩ := List.mem_map.1 hd
    exact correctable_by_kind r
  · rw [checkTree_diagnostics]
    exact forall₂_reported source _
  · intro parse d d' path name report h
    obtain ⟨before, hbefore, hcount⟩ := corrected_eq_marked h
    exact ⟨before, hbefore, output_eq_lines before, hcount⟩

/-- The one correction of a fixed file is the one marked line. -/
theorem marked_once : checkFile Sample.parser true Sample.disk ["w", "a.rb"] "a.rb" =
      .ok ({ path := "a.rb", corrected := 1 }, Sample.disk.write ["w", "a.rb"] Sample.after) ∧
    ∃ before, checkFile Sample.parser false Sample.disk ["w", "a.rb"] "a.rb" = .ok (before, Sample.disk) ∧
      (linesOf before).countP (Report.marked "a.rb") = 1 := by
  obtain ⟨before, hbefore, -, hcount⟩ :=
    (correctable_offenses_paired Sample.before (Sample.parser Sample.before)).2.2.2 _ _ _ _ _ _ Sample.checkFile_eq
  have hone : (1 : Int) = (linesOf before).countP (Report.marked "a.rb") := hcount
  exact ⟨Sample.checkFile_eq, before, hbefore, by exact_mod_cast hone.symm⟩

end Run

end TimeLint
