import Mathlib
import TimeLint.Program
import TimeLint.Proofs.Commands
import TimeLint.Proofs.SecondRun
import TimeLint.Proofs.Writing

/-! Checking after fixing. If `fix` returns 0 or 1, then `check` on the disk that it left prints the same,
returns the same and changes nothing. -/

namespace TimeLint.Program

variable {parse : Parser} {e : Environment} {d : Disk}

theorem records_uncorrected (reports : List FileReport) :
    Report.records (reports.map Run.uncorrected) = Report.records reports := by
  simp [Report.records, List.flatMap_map, Run.uncorrected]

theorem write_uncorrected (format : Report.Format) (reports : List FileReport) :
    Report.write format (reports.map Run.uncorrected) = Report.write format reports :=
  Report.write_congr (records_uncorrected reports)

theorem exitCode_uncorrected (reports : List FileReport) :
    exitCode ⟨reports.map Run.uncorrected, []⟩ = exitCode ⟨reports, []⟩ := by
  simp [exitCode, Run.Result.offenseCount, Run.uncorrected, List.foldl_map]

theorem failed_of_exitCode {r : Run.Result} {code : Nat} (h : exitCode r = code) (hc : code = 0 ∨ code = 1) :
    r.failed = [] := by
  cases hf : r.failed with
  | nil => rfl
  | cons x xs =>
    simp [exitCode, hf] at h
    omega

/-- A report that ends with a code rests on a run with a result, all of which could be written. -/
theorem report_returned {request : CommandLine.Request} {settings : Settings} {log : List Log.Event} {root : Path}
    {code : Nat} (h : (report parse request settings log root d).ending = .returned code) :
    ∃ result count, (Run.check parse (request.command == .fix) settings root d).result = .ok result ∧
      (Report.write (request.format.getD settings.format) result.reports).count = some count ∧
      exitCode result = code := by
  unfold report at h
  simp only at h
  split at h
  · simp at h
  · rename_i result hr
    split at h
    · simp at h
    · rename_i count hc
      exact ⟨result, count, hr, hc, by simpa using h⟩

theorem report_of_result (request : CommandLine.Request) (log : List Log.Event) {settings : Settings} {root : Path}
    {result : Run.Result} {count : Nat}
    (hr : (Run.check parse (request.command == .fix) settings root d).result = .ok result)
    (hc : (Report.write (request.format.getD settings.format) result.reports).count = some count) :
    (report parse request settings log root d).disk = (Run.check parse (request.command == .fix) settings root d).disk ∧
      (report parse request settings log root d).output =
        (Report.write (request.format.getD settings.format) result.reports).output ∧
      (report parse request settings log root d).ending = .returned (exitCode result) := by
  unfold report
  simp only [hr, hc]
  exact ⟨trivial, trivial, trivial⟩

/-- How a command comes to return: without a directory, with faulty settings, or with a report. -/
theorem execute_cases {request : CommandLine.Request} {code : Nat}
    (h : (execute parse e request d).ending = .returned code) :
    ∃ root, (expand e request.root).bind d.resolve = some root ∧
      ((d.isDirectory root = false ∧ code = 2) ∨
        (d.isDirectory root = true ∧ ∃ f, Settings.load d root = .error f ∧ isReported f = true ∧ code = 2) ∨
        (d.isDirectory root = true ∧ ∃ settings log, Settings.load d root = .ok (settings, log) ∧
          execute parse e request d = report parse request settings log root d)) := by
  unfold execute at h ⊢
  split at h
  · simp at h
  · rename_i root hroot
    refine ⟨root, hroot, ?_⟩
    split at h
    · rename_i hdir
      exact Or.inl ⟨by simpa using hdir, by simpa using h.symm⟩
    · rename_i hdir
      have hdir' : d.isDirectory root = true := by simpa using hdir
      right
      split at h
      · rename_i f hload
        split at h
        · exact Or.inl ⟨hdir', f, hload, by assumption, by simpa using h.symm⟩
        · simp at h
      · rename_i settings log hload
        exact Or.inr ⟨hdir', settings, log, hload, by simp [hdir]⟩

/-- A command that returns 0 or 1 found its directory, its settings and its files. -/
theorem execute_returned {request : CommandLine.Request} {code : Nat}
    (h : (execute parse e request d).ending = .returned code) (hc : code = 0 ∨ code = 1) :
    ∃ root settings log, (expand e request.root).bind d.resolve = some root ∧ d.isDirectory root = true ∧
      Settings.load d root = .ok (settings, log) ∧
      execute parse e request d = report parse request settings log root d := by
  obtain ⟨root, hroot, ⟨-, rfl⟩ | ⟨-, f, -, -, rfl⟩ | ⟨hdir, settings, log, hload, hexec⟩⟩ := execute_cases h
  · omega
  · omega
  · exact ⟨root, settings, log, hroot, hdir, hload, hexec⟩

theorem execute_of_parts {request : CommandLine.Request} {root : Path} {settings : Settings} {log : List Log.Event}
    (hroot : (expand e request.root).bind d.resolve = some root) (hdir : d.isDirectory root = true)
    (hload : Settings.load d root = .ok (settings, log)) :
    execute parse e request d = report parse request settings log root d := by
  unfold execute
  simp [hroot, hdir, hload]

theorem invoke_of_parse {arguments : List String} {request : CommandLine.Request}
    (h : CommandLine.parse arguments = .ok request) : invoke parse e arguments d = execute parse e request d := by
  unfold invoke
  rw [h]

theorem parse_of_returned {arguments : List String} {code : Nat} (h : (invoke parse e arguments d).ending = .returned code) :
    ∃ request, CommandLine.parse arguments = .ok request := by
  unfold invoke at h
  split at h
  · simp at h
  · simp at h
  · exact ⟨_, by assumption⟩

/-- If `fix` returns 0 or 1, `check` on the disk it left prints the same, returns the same and changes nothing;
its reports are those of `fix` with nothing corrected. -/
theorem check_repeats_fix (parse : Parser) (e : Environment) (rest : List String) (d : Disk) (code : Nat)
    (hcode : code = 0 ∨ code = 1) (hret : (invoke parse e ("fix" :: rest) d).ending = .returned code)
    (hlinks : ∀ request root, CommandLine.parse ("fix" :: rest) = .ok request →
      (expand e request.root).bind d.resolve = some root →
      d.isLink (root ++ [Scan.ignoreName]) = false ∧ d.isLink (root ++ [Settings.fileName]) = false) :
    (invoke parse e ("check" :: rest) (invoke parse e ("fix" :: rest) d).disk).output =
        (invoke parse e ("fix" :: rest) d).output ∧
      (invoke parse e ("check" :: rest) (invoke parse e ("fix" :: rest) d).disk).ending = .returned code ∧
      (invoke parse e ("check" :: rest) (invoke parse e ("fix" :: rest) d).disk).disk =
        (invoke parse e ("fix" :: rest) d).disk ∧
      ∃ request root settings log result, CommandLine.parse ("fix" :: rest) = .ok request ∧
        (expand e request.root).bind d.resolve = some root ∧ Settings.load d root = .ok (settings, log) ∧
        (Run.check parse true settings root d).disk = (invoke parse e ("fix" :: rest) d).disk ∧
        (Run.check parse true settings root d).result = .ok result ∧ result.failed = [] ∧
        (Run.check parse false settings root (invoke parse e ("fix" :: rest) d).disk).result =
          .ok ⟨result.reports.map Run.uncorrected, []⟩ := by
  obtain ⟨request, hparse⟩ := parse_of_returned hret
  obtain ⟨hfix, hparse'⟩ := CommandLine.parse_check_of_fix hparse
  rw [invoke_of_parse hparse] at hret ⊢
  rw [invoke_of_parse hparse']
  obtain ⟨root, settings, log, hroot, hdir, hload, hexec⟩ := execute_returned hret hcode
  obtain ⟨hignore, htoml⟩ := hlinks request root hparse hroot
  rw [hexec] at hret ⊢
  obtain ⟨result, count, hresult, hcount, hexit⟩ := report_returned hret
  obtain ⟨hdisk, houtput, -⟩ := report_of_result request log hresult hcount
  have htrue : (request.command == .fix) = true := by simp [hfix]
  rw [htrue] at hresult hdisk
  have hfailed := failed_of_exitCode hexit hcode
  -- the first run found its files, since it has a result
  obtain ⟨found, hfind⟩ : ∃ found, Scan.find d root settings.toSelection = .ok found := by
    cases hfind : Scan.find d root settings.toSelection with
    | ok found => exact ⟨found, rfl⟩
    | error f => simp [Run.check_of_scan_fault hfind] at hresult
  have hchanges : Run.Changes parse true found.files d (Run.check parse true settings root d).disk :=
    Run.check_changes hfind
  have hagain := Run.check_again hfind (Run.find_again hfind hignore hchanges) hresult hfailed
  rw [houtput, hdisk]
  -- the second run starts from the same directory with the same settings
  have hroot' : (expand e request.root).bind (Run.check parse true settings root d).disk.resolve = some root := by
    rw [← hroot]
    exact congrArg _ (funext (Disk.resolve_of_shape hchanges.shape))
  have hdir' := (Disk.isDirectory_of_shape hchanges.shape root).trans hdir
  have hload' := (Run.load_again hfind htoml hchanges).trans hload
  have hexec' : execute parse e { request with command := .check } (Run.check parse true settings root d).disk =
      report parse { request with command := .check } settings log root (Run.check parse true settings root d).disk :=
    execute_of_parts hroot' hdir' hload'
  have hcount' : (Report.write (request.format.getD settings.format) (result.reports.map Run.uncorrected)).count =
      some count := by
    rw [write_uncorrected, hcount]
  obtain ⟨hdisk', houtput', hend'⟩ := report_of_result { request with command := .check } log hagain hcount'
  rw [hexec', hdisk', houtput', hend']
  refine ⟨by rw [write_uncorrected], ?_, Run.check_disk settings root _,
    request, root, settings, log, result, hparse, hroot, hload, rfl, hresult, hfailed, hagain⟩
  rw [exitCode_uncorrected, ← hexit, ← hfailed]

namespace Sample

open Run.Sample

def environment : Environment := ⟨["w"], []⟩

theorem parse_fix : CommandLine.parse ["fix", "/w"] = .ok ⟨false, .fix, "/w", none⟩ := by cbv

theorem expand_root : (expand environment "/w").bind disk.resolve = some ["w"] := by cbv

theorem fix_returned : (invoke parser environment ["fix", "/w"] disk).ending = .returned 0 := by
  have hload : Settings.load disk ["w"] =
      .ok ({}, [⟨.debug, "rules.config", "No timecop.toml in /w, using defaults"⟩]) := by cbv
  have hresult := Run.check_result parser true find_eq (congrArg Prod.snd checkFiles_eq)
  rw [checkFiles_eq] at hresult
  rw [invoke_of_parse parse_fix, execute_of_parts expand_root (by cbv) hload]
  exact (report_of_result ⟨false, .fix, "/w", none⟩ _ hresult rfl).2.2

theorem check_repeats_fix_sample :
    (invoke parser environment ["fix", "/w"] disk).ending = .returned 0 ∧
      (invoke parser environment ["check", "/w"] (invoke parser environment ["fix", "/w"] disk).disk).output =
        (invoke parser environment ["fix", "/w"] disk).output ∧
      (invoke parser environment ["check", "/w"] (invoke parser environment ["fix", "/w"] disk).disk).ending =
        .returned 0 := by
  have hlinks : ∀ request root, CommandLine.parse ["fix", "/w"] = .ok request →
      (expand environment request.root).bind disk.resolve = some root →
      disk.isLink (root ++ [Scan.ignoreName]) = false ∧ disk.isLink (root ++ [Settings.fileName]) = false := by
    intro request root hp hr
    have hparse : CommandLine.parse ["fix", "/w"] = .ok ⟨false, .fix, "/w", none⟩ := by cbv
    have hroot : (expand environment "/w").bind disk.resolve = some ["w"] := by cbv
    obtain rfl : _ = request := by simpa [hparse] using hp
    obtain rfl : _ = root := by simpa [hroot] using hr
    exact ⟨by cbv, by cbv⟩
  obtain ⟨h1, h2, -⟩ := check_repeats_fix parser environment ["/w"] disk 0 (Or.inl rfl) fix_returned hlinks
  exact ⟨fix_returned, h1, h2⟩

end Sample

end TimeLint.Program
