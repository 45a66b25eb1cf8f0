import Mathlib
import TimeLint.Proofs.Discovery
import TimeLint.Run

/-! What a run may change. A file changes only if it was found, corrections were asked for, its text and the
corrected text are both free of faults, and then it holds the corrected text and nothing else. All other
places keep what they hold, however the run ends. -/

namespace TimeLint.Run

variable {parse : Parser} {fix : Bool} {root : Path} {d : Disk}

/-- The text `after` is the text `before` with every correctable offense corrected, and both are valid. -/
structure Corrected (parse : Parser) (before after : Bytes) : Prop where
  valid : (parse before).strict = .ok (parse before)
  offends : (checkTree before (parse before)).edits ≠ []
  applied : Edit.apply before (checkTree before (parse before)).edits = .ok after
  stillValid : (parse after).strict = .ok (parse after)

theorem strict_eq_ok {tree t : Node} (h : tree.strict = .ok t) : t = tree := by
  unfold Node.strict at h
  split at h
  · cases h
  · simpa using h.symm

theorem checkStrict_eq_ok {source : Bytes} {result : CheckResult} :
    checkStrict parse source = .ok result ↔
      (parse source).strict = .ok (parse source) ∧ result = checkTree source (parse source) := by
  unfold checkStrict
  cases h : (parse source).strict with
  | error f => simp
  | ok t =>
    obtain rfl := strict_eq_ok h
    simp [eq_comm]

/-- What a successful check of a text says. -/
theorem checkBytes_eq_ok {name : String} {source : Bytes} {checked : Checked}
    (h : checkBytes parse fix name source = .ok checked) :
    (parse source).strict = .ok (parse source) ∧
      (((fix = false ∨ (checkTree source (parse source)).edits = []) ∧
          checked = ⟨{ path := name, diagnostics := (checkTree source (parse source)).diagnostics }, none⟩) ∨
        (fix = true ∧ ∃ after, Corrected parse source after ∧
          checked = ⟨{ path := name, diagnostics := (checkTree after (parse after)).diagnostics,
                       corrected := (checkTree source (parse source)).edits.length }, some after⟩)) := by
  unfold checkBytes at h
  obtain ⟨result, h1, h⟩ := bind_eq_ok.1 h
  obtain ⟨hvalid, rfl⟩ := checkStrict_eq_ok.1 (mapError_eq_ok.1 h1)
  refine ⟨hvalid, ?_⟩
  split at h
  · rename_i hfix
    left
    simp only [Bool.or_eq_true, Bool.not_eq_true', List.isEmpty_iff] at hfix
    exact ⟨hfix, by simpa [pure, Except.pure] using h.symm⟩
  · rename_i hfix
    right
    simp only [Bool.or_eq_true, Bool.not_eq_true', not_or, Bool.not_eq_false, List.isEmpty_iff] at hfix
    obtain ⟨after, h2, h⟩ := bind_eq_ok.1 h
    obtain ⟨remaining, h3, h⟩ := bind_eq_ok.1 h
    obtain ⟨hstill, rfl⟩ := checkStrict_eq_ok.1 (mapError_eq_ok.1 h3)
    refine ⟨hfix.1, after, ⟨hvalid, hfix.2, mapError_eq_ok.1 h2, hstill⟩, ?_⟩
    simpa [pure, Except.pure] using h.symm

/-- The report is on the valid text that the path leads to. -/
def Reports (parse : Parser) (d : Disk) (path : Path) (report : FileReport) : Prop :=
  ∃ source, d.read path = .ok source ∧ (parse source).strict = .ok (parse source) ∧
    report.diagnostics = (checkTree source (parse source)).diagnostics

theorem read_write {path place : Path} {content old : Bytes} (h : d.locate path = .ok (place, .file old)) :
    (d.write path content).read path = .ok content := by
  refine Disk.read_of_locate (Disk.locate_of_shape (Disk.shape_write d path content) h ?_)
  rw [Disk.entry?_write h, if_pos rfl]

/-- A checked file is left alone or corrected, and the report is on what it holds afterwards. -/
theorem checkFile_eq_ok {path : Path} {name : String} {report : FileReport} {d' : Disk}
    (h : checkFile parse fix d path name = .ok (report, d')) :
    report.path = name ∧ Reports parse d' path report ∧
      (d' = d ∨ (fix = true ∧ ∃ source after, d.read path = .ok source ∧ Corrected parse source after ∧
        d' = d.write path after)) := by
  unfold checkFile at h
  obtain ⟨source, h1, h⟩ := bind_eq_ok.1 h
  obtain ⟨checked, h2, h⟩ := bind_eq_ok.1 h
  have hread := mapError_eq_ok.1 h1
  obtain ⟨hvalid, ⟨-, rfl⟩ | ⟨hfix, after, hcor, rfl⟩⟩ := checkBytes_eq_ok h2
  · obtain ⟨rfl, rfl⟩ : _ = report ∧ d = d' := by simpa [pure, Except.pure] using h
    exact ⟨rfl, ⟨source, hread, hvalid, rfl⟩, Or.inl rfl⟩
  · obtain ⟨rfl, rfl⟩ : _ = report ∧ d.write path after = d' := by simpa [pure, Except.pure] using h
    obtain ⟨place, hl⟩ := Disk.read_eq_ok hread
    exact ⟨rfl, ⟨after, read_write hl, hcor.stillValid, rfl⟩, Or.inr ⟨hfix, source, after, hread, hcor, rfl⟩⟩

/-- A file whose text can be corrected gets the corrected text. -/
theorem checkFile_of_corrected {path : Path} {source after : Bytes} (name : String) (hread : d.read path = .ok source)
    (h : Corrected parse source after) : checkFile parse true d path name =
      .ok ({ path := name, diagnostics := (checkTree after (parse after)).diagnostics,
             corrected := (checkTree source (parse source)).edits.length }, d.write path after) := by
  have hbefore : checkStrict parse source = .ok (checkTree source (parse source)) := checkStrict_eq_ok.2 ⟨h.valid, rfl⟩
  have hafter : checkStrict parse after = .ok (checkTree after (parse after)) := checkStrict_eq_ok.2 ⟨h.stillValid, rfl⟩
  simp [checkFile, checkBytes, hread, hbefore, hafter, h.offends, h.applied, Except.mapError, bind, Except.bind, pure,
    Except.pure]

/-- A step adds a report on the file or the name of a file that failed. -/
theorem step_eq_ok {p p' : Progress} {path : Path} (h : p.step parse fix root path = .ok p') :
    (∃ report d', checkFile parse fix p.disk path (Scan.relative root path) = .ok (report, d') ∧
      p' = p.addReport d' report) ∨
    ∃ message, p' = p.addFailure (Scan.relative root path) message := by
  unfold Progress.step at h
  simp only at h
  split at h
  · rename_i report d' hc
    exact Or.inl ⟨report, d', hc, by simpa using h.symm⟩
  · exact Or.inr ⟨_, by simpa using h.symm⟩
  · exact Or.inr ⟨_, by simpa using h.symm⟩
  · cases h

/-- The two paths do not lead to one file. -/
def Apart (d : Disk) (p q : Path) : Prop :=
  ∀ place b c, d.locate p = .ok (place, .file b) → d.locate q ≠ .ok (place, .file c)

/-- Between `d` and `d'` nothing has changed but files of `paths`, and those by correction. -/
structure Changes (parse : Parser) (fix : Bool) (paths : List Path) (d d' : Disk) : Prop where
  shape : d'.shape = d.shape
  entry : ∀ place, d'.entry? place = d.entry? place ∨
    (fix = true ∧ ∃ path ∈ paths, ∃ before after, d.locate path = .ok (place, .file before) ∧
      d'.entry? place = some (.file after) ∧ Corrected parse before after)

theorem file_of_shape {d' : Disk} {place : Path} {content : Bytes} (hs : d'.shape = d.shape)
    (h : d'.entry? place = some (.file content)) : ∃ c, d.entry? place = some (.file c) := by
  have hmap : (d.entry? place).map Entry.emptied = some (.file []) := by
    rw [← Disk.entry?_shape, ← hs, Disk.entry?_shape, h]
    rfl
  cases he : d.entry? place with
  | none => simp [he] at hmap
  | some e =>
    rw [he] at hmap
    cases e with
    | file c => exact ⟨c, rfl⟩
    | directory => simp [Entry.emptied] at hmap
    | link target => simp [Entry.emptied] at hmap

theorem locate_back {d' : Disk} {p place : Path} {content : Bytes} (hs : d'.shape = d.shape)
    (h : d'.locate p = .ok (place, .file content)) : ∃ c, d.locate p = .ok (place, .file c) := by
  obtain ⟨c, hc⟩ := file_of_shape hs (Disk.entry?_of_follow h)
  exact ⟨c, Disk.locate_of_shape hs.symm h hc⟩

theorem Apart.of_shape {d' : Disk} {p q : Path} (h : Apart d p q) (hs : d'.shape = d.shape) : Apart d' p q := by
  intro place b c hp hq
  obtain ⟨b', hp'⟩ := locate_back hs hp
  obtain ⟨c', hq'⟩ := locate_back hs hq
  exact h place b' c' hp' hq'

theorem Changes.refl (paths : List Path) (d : Disk) : Changes parse fix paths d d := ⟨rfl, fun _ => Or.inl rfl⟩

/-- Changes to one file and then to others, none of which is that file. -/
theorem Changes.cons {path : Path} {paths : List Path} {d1 d2 : Disk} (h1 : Changes parse fix [path] d d1)
    (h2 : Changes parse fix paths d1 d2) (ha : ∀ q ∈ paths, Apart d path q) :
    Changes parse fix (path :: paths) d d2 := by
  refine ⟨h2.shape.trans h1.shape, fun place => ?_⟩
  rcases h2.entry place with hsame | ⟨hfix, q, hq, before, after, hl, he, hc⟩
  · rw [hsame]
    rcases h1.entry place with h | ⟨hfix, q, hq, rest⟩
    · exact Or.inl h
    · obtain rfl : q = path := by simpa using hq
      exact Or.inr ⟨hfix, q, by simp, rest⟩
  · obtain ⟨old, hold⟩ := locate_back h1.shape hl
    rcases h1.entry place with h | ⟨-, q', hq', b, -, hl', -, -⟩
    · have hl0 : d.locate q = .ok (place, .file before) := by
        refine Disk.locate_of_shape h1.shape.symm hl ?_
        rw [← h]
        exact Disk.entry?_of_follow hl
      exact Or.inr ⟨hfix, q, by simp [hq], before, after, hl0, he, hc⟩
    · obtain rfl : q' = path := by simpa using hq'
      exact absurd hold (ha q hq place b old hl')

theorem step_changes {p p' : Progress} {path : Path} (h : p.step parse fix root path = .ok p') :
    Changes parse fix [path] p.disk p'.disk := by
  rcases step_eq_ok h with ⟨report, d', hc, rfl⟩ | ⟨message, rfl⟩
  · obtain ⟨-, -, rfl | ⟨hfix, source, after, hread, hcor, rfl⟩⟩ := checkFile_eq_ok hc
    · exact Changes.refl _ _
    · obtain ⟨place, hl⟩ := Disk.read_eq_ok hread
      refine ⟨Disk.shape_write _ _ _, fun q => ?_⟩
      simp only [Progress.addReport, Disk.entry?_write hl]
      split
      · rename_i hq
        subst hq
        exact Or.inr ⟨hfix, path, by simp, source, after, hl, rfl, hcor⟩
      · exact Or.inl rfl
  · exact Changes.refl _ _

theorem checkFiles_changes {paths : List Path} {p : Progress} (ha : paths.Pairwise (Apart p.disk)) :
    Changes parse fix paths p.disk (checkFiles parse fix root paths p).1.disk := by
  induction paths generalizing p with
  | nil => exact Changes.refl _ _
  | cons path paths ih =>
    obtain ⟨h1, h2⟩ := List.pairwise_cons.1 ha
    unfold checkFiles
    split
    · rename_i next hs
      have hstep := step_changes hs
      exact hstep.cons (ih (h2.imp fun h => h.of_shape hstep.shape)) h1
    · exact Changes.refl _ _

/-- Without corrections nothing is written. -/
theorem checkFiles_disk (paths : List Path) (p : Progress) : (checkFiles parse false root paths p).1.disk = p.disk := by
  induction paths generalizing p with
  | nil => rfl
  | cons path paths ih =>
    unfold checkFiles
    split
    · rename_i next hs
      rw [ih]
      rcases step_eq_ok hs with ⟨report, d', hc, rfl⟩ | ⟨message, rfl⟩
      · obtain ⟨-, -, rfl | ⟨hfix, -⟩⟩ := checkFile_eq_ok hc
        · rfl
        · cases hfix
      · rfl
    · rfl

/-- A path whose file has not changed is read as before. -/
theorem read_unchanged {d' : Disk} {path : Path} (hs : d'.shape = d.shape)
    (h : ∀ place b, d.locate path = .ok (place, .file b) → d'.entry? place = d.entry? place) :
    d'.read path = d.read path := by
  cases hr : d.read path with
  | ok content =>
    obtain ⟨place, hl⟩ := Disk.read_eq_ok hr
    refine Disk.read_of_locate (Disk.locate_of_shape hs hl ?_)
    rw [h place content hl]
    exact Disk.entry?_of_follow hl
  | error f =>
    have hmap : (d'.locate path).map (fun x => (x.1, x.2.emptied)) = (d.locate path).map fun x => (x.1, x.2.emptied) := by
      rw [← Disk.locate_shape, hs, Disk.locate_shape]
    unfold Disk.read at hr ⊢
    rcases h1 : d.locate path with f1 | ⟨place, e⟩ <;> rcases h2 : d'.locate path with f2 | ⟨place', e'⟩ <;>
      simp only [h1, h2, Except.map] at hmap hr ⊢
    · simp_all
    · simp at hmap
    · simp at hmap
    · obtain ⟨-, he⟩ : place' = place ∧ e'.emptied = e.emptied := by simpa using hmap
      cases e <;> cases e' <;> simp_all [Entry.emptied]

theorem Changes.read_apart {paths : List Path} {d' : Disk} {path : Path} (h : Changes parse fix paths d d')
    (ha : ∀ q ∈ paths, Apart d path q) : d'.read path = d.read path := by
  refine read_unchanged h.shape fun place b hl => ?_
  rcases h.entry place with he | ⟨-, q, hq, c, -, hl', -, -⟩
  · exact he
  · exact absurd hl' (ha q hq place b c hl)

/-- The names listed as failed are those of files that keep their bytes. -/
theorem checkFiles_failed (parse : Parser) (fix : Bool) (root : Path) {paths : List Path} {p : Progress}
    (ha : paths.Pairwise (Apart p.disk)) :
    ∃ failed : List Path, failed.Sublist paths ∧
      (checkFiles parse fix root paths p).1.result.failed = p.result.failed ++ failed.map (Scan.relative root) ∧
      ∀ q ∈ failed, (checkFiles parse fix root paths p).1.disk.read q = p.disk.read q := by
  induction paths generalizing p with
  | nil => exact ⟨[], by simp, by simp [checkFiles], by simp⟩
  | cons path paths ih =>
    obtain ⟨h1, h2⟩ := List.pairwise_cons.1 ha
    unfold checkFiles
    split
    · rename_i next hs
      have hstep := step_changes hs
      have hapart : paths.Pairwise (Apart next.disk) := h2.imp fun h => h.of_shape hstep.shape
      obtain ⟨failed, hsub, hfailed, hread⟩ := ih hapart
      have hlater : ∀ q ∈ paths, next.disk.read q = p.disk.read q := fun q hq =>
        hstep.read_apart fun x hx place b c hq' hx' => by
          obtain rfl : x = path := by simpa using hx
          exact h1 q hq place c b hx' hq'
      rcases step_eq_ok hs with ⟨report, d', hc, rfl⟩ | ⟨message, rfl⟩
      · refine ⟨failed, hsub.cons path, hfailed, fun q hq => ?_⟩
        rw [hread q hq, hlater q (hsub.subset hq)]
      · refine ⟨path :: failed, hsub.cons_cons path, ?_, ?_⟩
        · rw [hfailed]
          simp [Progress.addFailure]
        · intro q hq
          rcases List.mem_cons.1 hq with rfl | hq
          · exact (checkFiles_changes hapart).read_apart h1
          · exact hread q hq
    · exact ⟨[], by simp, by simp, by simp⟩

theorem pairwise_apart {s : Selection} {found : Scan.Found} (h : Scan.find d root s = .ok found) :
    found.files.Pairwise (Apart d) := by
  refine (Scan.nodup_files h).imp_of_mem fun {p q} hp hq hne place b c h1 h2 => hne ?_
  have hlp := Scan.listed_of_find h hp
  have hlq := Scan.listed_of_find h hq
  exact Disk.listed_injective hlp.below hlq.below hlp.notLink hlq.notLink h1 h2

/-- The disk that a run leaves, and the names that it lists as failed. -/
theorem check_eq (parse : Parser) (fix : Bool) {settings : Settings} {found : Scan.Found}
    (h : Scan.find d root settings.toSelection = .ok found) :
    (check parse fix settings root d).disk =
        (checkFiles parse fix root found.files ⟨d, found.log, ⟨[], []⟩⟩).1.disk ∧
      ∀ result, (check parse fix settings root d).result = .ok result →
        (checkFiles parse fix root found.files ⟨d, found.log, ⟨[], []⟩⟩).2 = none ∧
        result = (checkFiles parse fix root found.files ⟨d, found.log, ⟨[], []⟩⟩).1.result := by
  unfold check
  rw [h]
  simp only
  split
  · rename_i p hp
    rw [hp]
    exact ⟨rfl, fun result hr => ⟨rfl, by simpa using hr.symm⟩⟩
  · rename_i p r hp
    rw [hp]
    exact ⟨rfl, fun result hr => by simp at hr⟩

/-- A run that no refused edit breaks off has a result. -/
theorem check_result (parse : Parser) (fix : Bool) {settings : Settings} {found : Scan.Found}
    (h : Scan.find d root settings.toSelection = .ok found)
    (hend : (checkFiles parse fix root found.files ⟨d, found.log, ⟨[], []⟩⟩).2 = none) :
    (check parse fix settings root d).result =
      .ok (checkFiles parse fix root found.files ⟨d, found.log, ⟨[], []⟩⟩).1.result := by
  unfold check
  rw [h]
  simp only
  split
  · rename_i p hp
    rw [hp]
  · rename_i p r hp
    rw [hp] at hend
    cases hend

theorem check_of_scan_fault {settings : Settings} {f : Scan.Fault}
    (h : Scan.find d root settings.toSelection = .error f) :
    check parse fix settings root d = ⟨d, [], .error (.scan f)⟩ := by
  unfold check
  rw [h]

theorem checkWith_eq (parse : Parser) (fix : Bool) {given : Option Settings} {settings : Settings} {log : List Log.Event}
    (h : settingsFor given root d = .ok (settings, log)) :
    (checkWith parse fix given root d).disk = (check parse fix settings root d).disk ∧
      (checkWith parse fix given root d).result = (check parse fix settings root d).result := by
  unfold checkWith
  rw [h]
  exact ⟨rfl, rfl⟩

theorem checkWith_of_fault {given : Option Settings} {f : Settings.Fault} (h : settingsFor given root d = .error f) :
    checkWith parse fix given root d = ⟨d, [], .error (.settings f)⟩ := by
  unfold checkWith
  rw [h]

theorem isWithin_eq_true {path : Path} (h : Scan.isWithin d root path = true) :
    ∃ real realRoot, d.resolve path = some real ∧ d.resolve root = some realRoot ∧ realRoot <+: real := by
  unfold Scan.isWithin at h
  split at h
  · rename_i real realRoot h1 h2
    exact ⟨real, realRoot, h1, h2, List.isPrefixOf_iff_prefix.1 h⟩
  · cases h

/-- A run in which the files could be found, as far as the disk is concerned. -/
theorem check_changes {settings : Settings} {found : Scan.Found} (h : Scan.find d root settings.toSelection = .ok found) :
    Changes parse fix found.files d (check parse fix settings root d).disk := by
  rw [(check_eq _ _ h).1]
  exact checkFiles_changes (p := ⟨d, found.log, ⟨[], []⟩⟩) (pairwise_apart h)

theorem check_disk (settings : Settings) (root : Path) (d : Disk) : (check parse false settings root d).disk = d := by
  cases h : Scan.find d root settings.toSelection with
  | error f => rw [check_of_scan_fault h]
  | ok found => rw [(check_eq _ _ h).1, checkFiles_disk]

/-- A run changes only files that it found, that are no links and lie within the directory, and only from a
valid text to its valid correction. Without `fix` it changes nothing, and failed files keep their bytes. -/
theorem checkWith_touches_only_corrected (parse : Parser) (fix : Bool) (given : Option Settings) (root : Path) (d : Disk) :
    (∀ place, (checkWith parse fix given root d).disk.entry? place ≠ d.entry? place →
      fix = true ∧ ∃ settings log found path before after,
        settingsFor given root d = .ok (settings, log) ∧ Scan.find d root settings.toSelection = .ok found ∧
        path ∈ found.files ∧ d.isLink path = false ∧ d.locate path = .ok (place, .file before) ∧
        (∃ real realRoot, d.resolve path = some real ∧ d.resolve root = some realRoot ∧ realRoot <+: real) ∧
        (∃ base, d.locate root = .ok (base, .directory) ∧ base <+: place) ∧
        (checkWith parse fix given root d).disk.entry? place = some (.file after) ∧ Corrected parse before after) ∧
    (fix = false → (checkWith parse fix given root d).disk = d) ∧
    ∀ settings log found result, settingsFor given root d = .ok (settings, log) →
      Scan.find d root settings.toSelection = .ok found → (checkWith parse fix given root d).result = .ok result →
      ∀ path ∈ found.files, Scan.relative root path ∈ result.failed →
        (checkWith parse fix given root d).disk.read path = d.read path := by
  cases hset : settingsFor given root d with
  | error f =>
    rw [checkWith_of_fault hset]
    exact ⟨fun place h => absurd rfl h, fun _ => rfl, by simp⟩
  | ok x =>
    obtain ⟨settings, log⟩ := x
    obtain ⟨hdisk, hresult⟩ := checkWith_eq parse fix hset
    rw [hdisk, hresult]
    refine ⟨fun place hne => ?_, ?_, ?_⟩
    · cases hfind : Scan.find d root settings.toSelection with
      | error f =>
        rw [check_of_scan_fault hfind] at hne
        exact absurd rfl hne
      | ok found =>
        obtain hsame | ⟨hfix, path, hp, before, after, hl, he, hc⟩ := (check_changes hfind).entry place
        · exact absurd hsame hne
        · have hlisted := Scan.listed_of_find hfind hp
          obtain ⟨base, rel, hb, -, -, rfl⟩ := Disk.place_of_listed hlisted.below hlisted.notLink hl
          exact ⟨hfix, settings, log, found, path, before, after, rfl, hfind, hp, hlisted.notLink, hl,
            isWithin_eq_true hlisted.within, ⟨base, hb, List.prefix_append _ _⟩, he, hc⟩
    · rintro rfl
      exact check_disk settings root d
    · rintro settings' log' found result hs hfind hr path hp hfailed
      obtain ⟨rfl, rfl⟩ : settings = settings' ∧ log = log' := by simpa using hs
      obtain ⟨hd, hres⟩ := check_eq parse fix hfind
      obtain ⟨-, rfl⟩ := hres result hr
      obtain ⟨failed, hsub, hf, hread⟩ := checkFiles_failed parse fix root
        (p := ⟨d, found.log, ⟨[], []⟩⟩) (pairwise_apart hfind)
      rw [hf, List.nil_append, List.mem_map] at hfailed
      obtain ⟨q, hq, hrel⟩ := hfailed
      have hlisted : ∀ x ∈ found.files, x ∈ d.below root := fun x hx => (Scan.listed_of_find hfind hx).below
      obtain rfl := Scan.relative_injective (hlisted q (hsub.subset hq)) (hlisted path hp) hrel
      rw [hd]
      exact hread q hq

namespace Sample

def before : Bytes := Bytes.ofString "Timecop.return"

def after : Bytes := Bytes.ofString "travel_back"

/-- The trees of the two texts. -/
def parser : Parser := fun source =>
  let node (kind : String) (a b : Int) (named : Bool) (field : Option String) (cs : List Node) : Node :=
    ⟨kind, ⟨a, b, ⟨0, a⟩, ⟨0, b⟩⟩, named, false, false, field, cs⟩
  if source == before then
    node "program" 0 14 true none [node "call" 0 14 true none
      [node "constant" 0 7 true (some "receiver") [], node "." 7 8 false none [],
       node "identifier" 8 14 true (some "method") []]]
  else node "program" 0 11 true none [node "identifier" 0 11 true none []]

def disk : Disk := ⟨[(["w"], .directory), (["w", "a.rb"], .file before)]⟩

theorem edits_before : (checkTree before (parser before)).edits = [⟨0, 14, "travel_back"⟩] := by decide +kernel

theorem corrected_before : Corrected parser before after :=
  ⟨rfl, by simp [edits_before], by rw [edits_before]; cbv, rfl⟩

theorem diagnostics_after : (checkTree after (parser after)).diagnostics = [] := by decide +kernel

theorem checkFile_eq : checkFile parser true disk ["w", "a.rb"] "a.rb" =
    .ok ({ path := "a.rb", corrected := 1 }, disk.write ["w", "a.rb"] after) := by
  have hread : disk.read ["w", "a.rb"] = .ok before := by cbv
  rw [checkFile_of_corrected "a.rb" hread corrected_before, diagnostics_after, edits_before]
  rfl

theorem find_eq : Scan.find disk ["w"] ({} : Settings).toSelection = .ok ⟨[["w", "a.rb"]], []⟩ := by cbv

theorem checkFiles_eq : checkFiles parser true ["w"] [["w", "a.rb"]] ⟨disk, [], ⟨[], []⟩⟩ =
    (Progress.addReport ⟨disk, [], ⟨[], []⟩⟩ (disk.write ["w", "a.rb"] after) { path := "a.rb", corrected := 1 },
      none) := by
  have hname : Scan.relative ["w"] ["w", "a.rb"] = "a.rb" := rfl
  simp [checkFiles, Progress.step, hname, checkFile_eq]

/-- Here a file does change. -/
theorem touches_only_corrected_sample :
    (checkWith parser true (some {}) ["w"] disk).disk.entry? ["w", "a.rb"] = some (.file after) ∧
      disk.entry? ["w", "a.rb"] = some (.file before) ∧ Corrected parser before after := by
  have hlocate : disk.locate ["w", "a.rb"] = .ok (["w", "a.rb"], .file before) := by cbv
  have hold : disk.entry? ["w", "a.rb"] = some (.file before) := Disk.entry?_of_follow hlocate
  have hnew : (checkWith parser true (some {}) ["w"] disk).disk.entry? ["w", "a.rb"] = some (.file after) := by
    rw [(checkWith_eq parser true rfl).1, (check_eq parser true find_eq).1, checkFiles_eq]
    exact (Disk.entry?_write hlocate _).trans (if_pos rfl)
  have hne : (checkWith parser true (some {}) ["w"] disk).disk.entry? ["w", "a.rb"] ≠ disk.entry? ["w", "a.rb"] := by
    rw [hnew, hold]
    decide
  obtain ⟨-, settings, log, found, path, b, a, -, -, -, -, hpath, -, -, hafter, hcorrected⟩ :=
    (checkWith_touches_only_corrected parser true (some {}) ["w"] disk).1 _ hne
  obtain rfl : b = before := by
    have := Disk.entry?_of_follow hpath
    simpa [hold] using this.symm
  obtain rfl : a = after := by simpa [hnew] using hafter.symm
  exact ⟨hnew, hold, hcorrected⟩

end Sample

end TimeLint.Run
