import Mathlib
import TimeLint.Proofs.FixThenCheck
import TimeLint.Proofs.Tree

/-! What the exit status says about the disk that a command leaves. 2 stands for a directory or settings that
cannot be used, or a failed file; 0 for files that are all valid and hold no reference to the target; 1 for
files that are all valid, at least one of which holds such a reference. -/

namespace TimeLint

theorem diagnostics_eq_nil_iff {source : Bytes} {tree : Node} :
    (checkTree source tree).diagnostics = [] ↔ ∀ c ∈ Cursor.preorder [] tree, Offense.reference? source c = none := by
  simp only [checkTree, references, Cursor.root, Cursor.walk_node, List.map_eq_nil_iff, List.filterMap_eq_nil_iff]

namespace Run

theorem offenseCount_eq_zero_iff {result : Result} :
    result.offenseCount = 0 ↔ ∀ report ∈ result.reports, report.diagnostics = [] := by
  rw [offenseCount_eq, List.length_eq_zero_iff, List.flatMap_eq_nil_iff]

/-- A name among the failures is that of a file found. -/
theorem found_of_failed {parse : Parser} {fix : Bool} {settings : Settings} {root : Path} {d : Disk} {result : Result}
    {found : Scan.Found} (hfind : Scan.find d root settings.toSelection = .ok found)
    (hr : (check parse fix settings root d).result = .ok result) {name : String} (hname : name ∈ result.failed) :
    ∃ path ∈ found.files, Scan.relative root path = name := by
  obtain ⟨-, rfl⟩ := (check_eq parse fix hfind).2 result hr
  obtain ⟨failed, hsub, hf, -⟩ := checkFiles_failed parse fix root (p := ⟨d, found.log, ⟨[], []⟩⟩) (pairwise_apart hfind)
  rw [hf, List.nil_append, List.mem_map] at hname
  obtain ⟨path, hp, rfl⟩ := hname
  exact ⟨path, hsub.subset hp, rfl⟩

theorem find_of_check {parse : Parser} {fix : Bool} {settings : Settings} {root : Path} {d : Disk} {result : Result}
    (hr : (check parse fix settings root d).result = .ok result) :
    ∃ found, Scan.find d root settings.toSelection = .ok found := by
  cases hfind : Scan.find d root settings.toSelection with
  | ok found => exact ⟨found, rfl⟩
  | error f => simp [check_of_scan_fault hfind] at hr

/-- Each file found has its report in a run without a failure, and each report its file. -/
theorem reports_of_found {parse : Parser} {fix : Bool} {settings : Settings} {root : Path} {d : Disk} {result : Result}
    {found : Scan.Found} (hfind : Scan.find d root settings.toSelection = .ok found)
    (hr : (check parse fix settings root d).result = .ok result) (hfailed : result.failed = []) :
    (∀ path ∈ found.files, ∃ report ∈ result.reports, Reports parse (check parse fix settings root d).disk path report) ∧
      ∀ report ∈ result.reports, ∃ path ∈ found.files,
        Reports parse (check parse fix settings root d).disk path report := by
  have hall := check_reports hfind hr hfailed
  generalize found.files = paths, result.reports = reports at hall ⊢
  induction hall with
  | nil => simp
  | cons h _ ih =>
    simp only [List.mem_cons, forall_eq_or_imp, exists_eq_or_imp]
    exact ⟨⟨.inl h.2, fun path hp => .inr (ih.1 path hp)⟩, .inl h.2, fun report hrep => .inr (ih.2 report hrep)⟩

end Run

namespace Program

open Run (Reports)

variable {parse : Parser} {e : Environment} {d : Disk} {path : Path}

/-- The path leads to a valid text. -/
def HoldsValid (parse : Parser) (d : Disk) (path : Path) : Prop :=
  ∃ source, d.read path = .ok source ∧ (parse source).strict = .ok (parse source)

/-- The path leads to a valid text that holds no reference to the target. -/
def HoldsClean (parse : Parser) (d : Disk) (path : Path) : Prop :=
  ∃ source, d.read path = .ok source ∧ (parse source).strict = .ok (parse source) ∧
    ∀ c ∈ Cursor.preorder [] (parse source), Offense.reference? source c = none

/-- The path leads to a text that holds a reference to the target. -/
def HoldsReference (parse : Parser) (d : Disk) (path : Path) : Prop :=
  ∃ source, d.read path = .ok source ∧ ∃ c ∈ Cursor.preorder [] (parse source), Offense.reference? source c ≠ none

theorem holdsValid_of_reports {report : FileReport} (h : Reports parse d path report) : HoldsValid parse d path := by
  obtain ⟨source, hread, hvalid, -⟩ := h
  exact ⟨source, hread, hvalid⟩

theorem holdsClean_of_reports {report : FileReport} (h : Reports parse d path report) (hnone : report.diagnostics = []) :
    HoldsClean parse d path := by
  obtain ⟨source, hread, hvalid, hd⟩ := h
  exact ⟨source, hread, hvalid, diagnostics_eq_nil_iff.1 (hd.symm.trans hnone)⟩

theorem holdsReference_of_reports {report : FileReport} (h : Reports parse d path report) (hsome : report.diagnostics ≠ []) :
    HoldsReference parse d path := by
  obtain ⟨source, hread, -, hd⟩ := h
  rw [hd, Ne, diagnostics_eq_nil_iff] at hsome
  push Not at hsome
  exact ⟨source, hread, hsome⟩

theorem exitCode_cases (result : Run.Result) : exitCode result = 0 ∨ exitCode result = 1 ∨ exitCode result = 2 := by
  unfold exitCode
  split
  · simp
  · split <;> simp

theorem exitCode_eq_two_iff {result : Run.Result} : exitCode result = 2 ↔ result.failed ≠ [] := by
  unfold exitCode
  split
  · simp_all
  · split <;> simp_all

theorem exitCode_eq_zero_iff {result : Run.Result} :
    exitCode result = 0 ↔ result.failed = [] ∧ ∀ report ∈ result.reports, report.diagnostics = [] := by
  rw [← Run.offenseCount_eq_zero_iff]
  unfold exitCode
  split
  · simp_all
  · split <;> simp_all

theorem exitCode_eq_one_iff {result : Run.Result} :
    exitCode result = 1 ↔ result.failed = [] ∧ ∃ report ∈ result.reports, report.diagnostics ≠ [] := by
  have hzero : result.offenseCount ≠ 0 ↔ ∃ report ∈ result.reports, report.diagnostics ≠ [] := by
    rw [Ne, Run.offenseCount_eq_zero_iff]
    push Not
    rfl
  rw [← hzero]
  unfold exitCode
  split
  · simp_all
  · split <;> simp_all

/-- What is known once a command has a report: the run behind it and the files of that run. -/
theorem report_status {request : CommandLine.Request} {settings : Settings} {log : List Log.Event} {root : Path}
    {code : Nat} (h : (report parse request settings log root d).ending = .returned code) :
    ∃ result found, Scan.find d root settings.toSelection = .ok found ∧
      (Run.check parse (request.command == .fix) settings root d).result = .ok result ∧ exitCode result = code ∧
      (report parse request settings log root d).disk =
        (Run.check parse (request.command == .fix) settings root d).disk := by
  obtain ⟨result, count, hresult, hcount, hexit⟩ := report_returned h
  obtain ⟨found, hfind⟩ := Run.find_of_check hresult
  exact ⟨result, found, hfind, hresult, hexit, (report_of_result request log hresult hcount).1⟩

/-- A command that returns does so with 0, 1 or 2. It returns 2 exactly if its directory is none, its settings
are faulty, or a file found is listed as failed. After 0 all files found are valid and free of references to
the target; after 1 all are valid and one holds a reference. -/
theorem exit_status_truthful (parse : Parser) (e : Environment) (arguments : List String) (d : Disk) (code : Nat)
    (hret : (invoke parse e arguments d).ending = .returned code) :
    ∃ request root, CommandLine.parse arguments = .ok request ∧ (expand e request.root).bind d.resolve = some root ∧
      (code = 0 ∨ code = 1 ∨ code = 2) ∧
      (code = 2 ↔ d.isDirectory root = false ∨ (∃ f, Settings.load d root = .error f ∧ isReported f = true) ∨
        ∃ settings log found result, Settings.load d root = .ok (settings, log) ∧
          Scan.find d root settings.toSelection = .ok found ∧
          (Run.check parse (request.command == .fix) settings root d).result = .ok result ∧
          ∃ path ∈ found.files, Scan.relative root path ∈ result.failed) ∧
      (code = 0 → ∃ settings log found, Settings.load d root = .ok (settings, log) ∧
        Scan.find d root settings.toSelection = .ok found ∧
        ∀ path ∈ found.files, HoldsClean parse (invoke parse e arguments d).disk path) ∧
      (code = 1 → ∃ settings log found, Settings.load d root = .ok (settings, log) ∧
        Scan.find d root settings.toSelection = .ok found ∧
        (∀ path ∈ found.files, HoldsValid parse (invoke parse e arguments d).disk path) ∧
        ∃ path ∈ found.files, HoldsReference parse (invoke parse e arguments d).disk path) := by
  obtain ⟨request, hparse⟩ := parse_of_returned hret
  rw [invoke_of_parse hparse] at hret ⊢
  obtain ⟨root, hroot, ⟨hdir, rfl⟩ | ⟨hdir, f, hload, hreported, rfl⟩ | ⟨hdir, settings, log, hload, hexec⟩⟩ :=
    execute_cases hret
  · exact ⟨request, root, hparse, hroot, by simp, by simp [hdir], by simp, by simp⟩
  · exact ⟨request, root, hparse, hroot, by simp, by simp [hload, hreported], by simp, by simp⟩
  · rw [hexec] at hret ⊢
    obtain ⟨result, found, hfind, hresult, hexit, hdisk⟩ := report_status hret
    rw [hdisk]
    refine ⟨request, root, hparse, hroot, ?_, ?_, ?_, ?_⟩
    · rw [← hexit]
      exact exitCode_cases result
    · rw [← hexit, exitCode_eq_two_iff]
      constructor
      · intro hfailed
        obtain ⟨name, hname⟩ := List.exists_mem_of_ne_nil _ hfailed
        obtain ⟨path, hp, rfl⟩ := Run.found_of_failed hfind hresult hname
        exact .inr (.inr ⟨settings, log, found, result, hload, hfind, hresult, path, hp, hname⟩)
      · rintro (hno | ⟨f, hf, -⟩ | ⟨settings', log', found', result', hload', -, hresult', path, -, hname⟩)
        · simp [hdir] at hno
        · simp [hload] at hf
        · obtain ⟨rfl, rfl⟩ := Prod.mk.inj (Except.ok.inj (hload.symm.trans hload'))
          obtain rfl := Except.ok.inj (hresult.symm.trans hresult')
          exact List.ne_nil_of_mem hname
    · intro hcode
      obtain ⟨hfailed, hnone⟩ := exitCode_eq_zero_iff.1 (hexit.trans hcode)
      refine ⟨settings, log, found, hload, hfind, fun path hp => ?_⟩
      obtain ⟨report, hrep, hreports⟩ := (Run.reports_of_found hfind hresult hfailed).1 path hp
      exact holdsClean_of_reports hreports (hnone report hrep)
    · intro hcode
      obtain ⟨hfailed, report, hrep, hsome⟩ := exitCode_eq_one_iff.1 (hexit.trans hcode)
      obtain ⟨hfiles, hback⟩ := Run.reports_of_found hfind hresult hfailed
      refine ⟨settings, log, found, hload, hfind, fun path hp => ?_, ?_⟩
      · obtain ⟨report', -, hreports⟩ := hfiles path hp
        exact holdsValid_of_reports hreports
      · obtain ⟨path, hp, hreports⟩ := hback report hrep
        exact ⟨path, hp, holdsReference_of_reports hreports hsome⟩

namespace Sample

open Run.Sample

/-- The fix of the sample leaves no file with a reference. -/
theorem exit_status_sample :
    (invoke parser environment ["fix", "/w"] disk).ending = .returned 0 ∧
      ∃ settings log found, Settings.load disk ["w"] = .ok (settings, log) ∧
        Scan.find disk ["w"] settings.toSelection = .ok found ∧
        ∀ path ∈ found.files, HoldsClean parser (invoke parser environment ["fix", "/w"] disk).disk path := by
  refine ⟨fix_returned, ?_⟩
  obtain ⟨request, root, hparse, hroot, -, -, hzero, -⟩ :=
    exit_status_truthful parser environment ["fix", "/w"] disk 0 fix_returned
  obtain rfl := Except.ok.inj (hparse.symm.trans parse_fix)
  obtain rfl := Option.some.inj (hroot.symm.trans expand_root)
  exact hzero rfl

end Sample

end Program

end TimeLint
