import TimeLint.Proofs.RunChanges

/-! A run after a run that corrected. What the first run changed are Ruby files, so the second one finds the
same files under the same settings, and its reports are those of the first with nothing corrected. -/

namespace TimeLint.Run

variable {parse : Parser} {fix : Bool} {root : Path} {d d' : Disk}

theorem Reports.of_read {path : Path} {report : FileReport} (h : Reports parse d path report)
    (hr : d'.read path = d.read path) : Reports parse d' path report := by
  obtain ⟨source, hread, hvalid, hd⟩ := h
  exact ⟨source, hr.trans hread, hvalid, hd⟩

/-- Where no file fails, each has a report, in order, on what it holds at the end of the run. -/
theorem checkFiles_reports {paths : List Path} {p : Progress} (ha : paths.Pairwise (Apart p.disk))
    (hend : (checkFiles parse fix root paths p).2 = none)
    (hfailed : (checkFiles parse fix root paths p).1.result.failed = p.result.failed) :
    ∃ reports, (checkFiles parse fix root paths p).1.result.reports = p.result.reports ++ reports ∧
      List.Forall₂ (fun path report => report.path = Scan.relative root path ∧
        Reports parse (checkFiles parse fix root paths p).1.disk path report) paths reports := by
  induction paths generalizing p with
  | nil => exact ⟨[], by simp [checkFiles], List.Forall₂.nil⟩
  | cons path paths ih =>
    obtain ⟨h1, h2⟩ := List.pairwise_cons.1 ha
    cases hs : p.step parse fix root path with
    | error r => simp [checkFiles, hs] at hend
    | ok next =>
      have hrun : checkFiles parse fix root (path :: paths) p = checkFiles parse fix root paths next := by
        simp [checkFiles, hs]
      rw [hrun] at hend hfailed ⊢
      have hstep := step_changes hs
      have hapart : paths.Pairwise (Apart next.disk) := h2.imp fun h => h.of_shape hstep.shape
      rcases step_eq_ok hs with ⟨report, d', hc, rfl⟩ | ⟨message, rfl⟩
      · obtain ⟨reports, hreports, hall⟩ := ih hapart hend hfailed
        obtain ⟨hname, hrep, -⟩ := checkFile_eq_ok hc
        refine ⟨report :: reports, by rw [hreports]; simp [Progress.addReport], ?_⟩
        refine List.Forall₂.cons ⟨hname, hrep.of_read ?_⟩ hall
        exact (checkFiles_changes hapart).read_apart fun q hq => (h1 q hq).of_shape hstep.shape
      · -- the name of this file would stay in the list of failures
        obtain ⟨failed, -, hf, -⟩ := checkFiles_failed parse fix root hapart
        rw [hf] at hfailed
        have := congrArg List.length hfailed
        simp [Progress.addFailure] at this

/-- A report with no correction in it. -/
def uncorrected (r : FileReport) : FileReport := { r with corrected := 0 }

theorem checkFile_of_reports {path : Path} {name : String} {report : FileReport} (h : Reports parse d path report)
    (hname : report.path = name) : checkFile parse false d path name = .ok (uncorrected report, d) := by
  obtain ⟨source, hread, hvalid, hd⟩ := h
  have hcheck : checkStrict parse source = .ok (checkTree source (parse source)) := checkStrict_eq_ok.2 ⟨hvalid, rfl⟩
  simp [checkFile, checkBytes, hread, hcheck, Except.mapError, bind, Except.bind, pure, Except.pure, uncorrected,
    ← hname, ← hd]

/-- Files that have a report are reported again, as they are. -/
theorem checkFiles_of_reports {paths : List Path} {reports : List FileReport} {p : Progress}
    (h : List.Forall₂ (fun path report => report.path = Scan.relative root path ∧ Reports parse p.disk path report)
      paths reports) :
    (checkFiles parse false root paths p).2 = none ∧
      (checkFiles parse false root paths p).1.result =
        ⟨p.result.reports ++ reports.map uncorrected, p.result.failed⟩ := by
  induction paths generalizing reports p with
  | nil =>
    cases h
    simp [checkFiles]
  | cons path paths ih =>
    cases h with
    | cons hhead htail =>
      rename_i report reports
      have hstep : p.step parse false root path = .ok (p.addReport p.disk (uncorrected report)) := by
        simp [Progress.step, checkFile_of_reports hhead.2 hhead.1]
      have hrun : checkFiles parse false root (path :: paths) p =
          checkFiles parse false root paths (p.addReport p.disk (uncorrected report)) := by
        simp [checkFiles, hstep]
      obtain ⟨h1, h2⟩ := ih (p := p.addReport p.disk (uncorrected report)) htail
      rw [hrun]
      exact ⟨h1, by rw [h2]; simp [Progress.addReport]⟩

/-- A run without a failure has a report on each file found, as the run leaves it. -/
theorem check_reports {settings : Settings} {result : Result} {found : Scan.Found}
    (hfind : Scan.find d root settings.toSelection = .ok found)
    (hr : (check parse fix settings root d).result = .ok result) (hfailed : result.failed = []) :
    List.Forall₂ (fun path report => report.path = Scan.relative root path ∧
      Reports parse (check parse fix settings root d).disk path report) found.files result.reports := by
  obtain ⟨hdisk, hres⟩ := check_eq parse fix hfind
  obtain ⟨hend, rfl⟩ := hres result hr
  obtain ⟨reports, hreports, hall⟩ := checkFiles_reports (p := ⟨d, found.log, ⟨[], []⟩⟩) (pairwise_apart hfind) hend hfailed
  rw [hdisk, hreports]
  exact hall

/-- A run that corrected without a failure is repeated by a run that only checks, on the disk it left. -/
theorem check_again {settings : Settings} {result : Result} {found : Scan.Found}
    (hfind : Scan.find d root settings.toSelection = .ok found)
    (hsame : Scan.find (check parse true settings root d).disk root settings.toSelection = .ok found)
    (hr : (check parse true settings root d).result = .ok result) (hfailed : result.failed = []) :
    (check parse false settings root (check parse true settings root d).disk).result =
      .ok ⟨result.reports.map uncorrected, []⟩ := by
  have hall := check_reports hfind hr hfailed
  obtain ⟨hnone, hresult⟩ := checkFiles_of_reports
    (p := ⟨(check parse true settings root d).disk, found.log, ⟨[], []⟩⟩) hall
  rw [check_result parse false hsame hnone, hresult]
  simp

/-- A file of another kind than those found, and no link, is read as before. -/
theorem Changes.read_other {s : Selection} {found : Scan.Found} (hfind : Scan.find d root s = .ok found)
    (h : Changes parse fix found.files d d') {path : Path} {n : String} (hn : n ≠ "..") (hname : n.endsWith ".rb" = false)
    (hlink : d.isLink (path ++ [n]) = false) : d'.read (path ++ [n]) = d.read (path ++ [n]) := by
  refine read_unchanged h.shape fun place b hl => ?_
  rcases h.entry place with he | ⟨-, q, hq, c, -, hl', -, -⟩
  · exact he
  · -- the place would end both in `n` and in a name of a Ruby file
    have hlisted := Scan.listed_of_find hfind hq
    have h1 := Disk.getLast?_of_locate hn hlink hl
    have h2 := Disk.getLast?_of_listed hlisted.below hlisted.notLink hl'
    have h3 := hlisted.ruby
    rw [Scan.hasRubyName, ← h2, h1, Option.getD_some, hname] at h3
    cases h3

theorem find_again {settings : Settings} {found : Scan.Found} (hfind : Scan.find d root settings.toSelection = .ok found)
    (hlink : d.isLink (root ++ [Scan.ignoreName]) = false) (h : Changes parse fix found.files d d') :
    Scan.find d' root settings.toSelection = .ok found := by
  rw [← hfind]
  refine Scan.find_of_shape h.shape (Scan.matcher_of_shape h.shape _ hlink fun path hp => ?_)
  exact h.read_other hfind (by decide) (by decide +kernel) hp

theorem load_again {s : Selection} {found : Scan.Found} (hfind : Scan.find d root s = .ok found)
    (hlink : d.isLink (root ++ [Settings.fileName]) = false) (h : Changes parse fix found.files d d') :
    Settings.load d' root = Settings.load d root := by
  have hread : d'.read (root ++ [Settings.fileName]) = d.read (root ++ [Settings.fileName]) :=
    h.read_other hfind (by decide) (by decide +kernel) hlink
  unfold Settings.load
  simp only [Disk.isFile_of_shape h.shape, hread]

end TimeLint.Run
