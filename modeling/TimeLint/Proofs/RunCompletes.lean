import Mathlib
import TimeLint.Proofs.RunChanges
import TimeLint.Proofs.Tangles

/-! When a run comes to its end. Files that cannot be read or are not valid never stop it; a file whose text
holds tangled calls does, if corrections are asked for. A run that ends has every file found in its reports
or among its failures, once and in order. -/

namespace TimeLint.Run

variable {parse : Parser} {fix : Bool} {root : Path} {d : Disk}

/-- The path leads to a valid text whose edits cannot be made. -/
def Refused (parse : Parser) (d : Disk) (path : Path) : Prop :=
  ∃ source, d.read path = .ok source ∧ (parse source).strict = .ok (parse source) ∧
    ∃ r, Edit.apply source (checkTree source (parse source)).edits = .error r

theorem Refused.of_read {d' : Disk} {path : Path} (hr : d'.read path = d.read path) :
    Refused parse d' path ↔ Refused parse d path := by
  unfold Refused
  rw [hr]

theorem checkBytes_eq_edits {name : String} {source : Bytes} {r : Edit.Refusal} :
    checkBytes parse fix name source = .error (.edits r) ↔
      fix = true ∧ (parse source).strict = .ok (parse source) ∧
        Edit.apply source (checkTree source (parse source)).edits = .error r := by
  unfold checkBytes
  constructor
  · intro h
    rcases bind_eq_error.1 h with h | ⟨result, h1, h⟩
    · obtain ⟨f, -, hf⟩ := mapError_eq_error.1 h
      cases hf
    · obtain ⟨hvalid, rfl⟩ := checkStrict_eq_ok.1 (mapError_eq_ok.1 h1)
      split at h
      · cases h
      · rename_i hfix
        simp only [Bool.or_eq_true, Bool.not_eq_true', not_or, Bool.not_eq_false] at hfix
        rcases bind_eq_error.1 h with h | ⟨after, -, h⟩
        · obtain ⟨r', happly, hr⟩ := mapError_eq_error.1 h
          obtain rfl : r' = r := by simpa using hr
          exact ⟨hfix.1, hvalid, happly⟩
        · -- a corrected text can only be broken
          rcases bind_eq_error.1 h with h | ⟨remaining, -, h⟩
          · obtain ⟨f, -, hf⟩ := mapError_eq_error.1 h
            cases hf
          · cases h
  · rintro ⟨rfl, hvalid, happly⟩
    have hcheck : checkStrict parse source = .ok (checkTree source (parse source)) := checkStrict_eq_ok.2 ⟨hvalid, rfl⟩
    have hne : (checkTree source (parse source)).edits.isEmpty = false := by
      rw [← Bool.not_eq_true, List.isEmpty_iff]
      intro hnil
      rw [hnil, Edit.apply_nil] at happly
      cases happly
    simp [hcheck, hne, happly, Except.mapError, bind, Except.bind]

theorem checkFile_eq_edits {path : Path} {name : String} {r : Edit.Refusal} :
    checkFile parse fix d path name = .error (.edits r) ↔
      ∃ source, d.read path = .ok source ∧ checkBytes parse fix name source = .error (.edits r) := by
  unfold checkFile
  constructor
  · intro h
    rcases bind_eq_error.1 h with h | ⟨source, h1, h⟩
    · obtain ⟨f, -, hf⟩ := mapError_eq_error.1 h
      cases hf
    · rcases bind_eq_error.1 h with h | ⟨checked, -, h⟩
      · exact ⟨source, mapError_eq_ok.1 h1, h⟩
      · split at h <;> cases h
  · rintro ⟨source, hread, h⟩
    simp [hread, h, Except.mapError, bind, Except.bind]

/-- A step fails exactly on a file whose edits are refused. -/
theorem step_eq_error_iff {p : Progress} {path : Path} :
    (∃ r, p.step parse fix root path = .error r) ↔ fix = true ∧ Refused parse p.disk path := by
  have hstep : ∀ r, p.step parse fix root path = .error r ↔
      checkFile parse fix p.disk path (Scan.relative root path) = .error (.edits r) := by
    intro r
    unfold Progress.step
    simp only
    split <;> simp_all
  simp only [hstep, checkFile_eq_edits, checkBytes_eq_edits, Refused]
  constructor
  · rintro ⟨r, source, hread, hfix, hvalid, happly⟩
    exact ⟨hfix, source, hread, hvalid, r, happly⟩
  · rintro ⟨hfix, source, hread, hvalid, r, happly⟩
    exact ⟨r, source, hread, hfix, hvalid, happly⟩

/-- What a step leaves as it was for the files that come later. -/
theorem step_read {p next : Progress} {path q : Path} (hs : p.step parse fix root path = .ok next)
    (ha : Apart p.disk path q) : next.disk.read q = p.disk.read q := by
  refine (step_changes hs).read_apart fun x hx place b c hq hx' => ?_
  obtain rfl : x = path := by simpa using hx
  exact ha place c b hx' hq

/-- Files are checked to the end unless one of them, as it stands at the start, has its edits refused. -/
theorem checkFiles_ends_iff {paths : List Path} {p : Progress} (ha : paths.Pairwise (Apart p.disk)) :
    (checkFiles parse fix root paths p).2 = none ↔ (fix = true → ∀ path ∈ paths, ¬ Refused parse p.disk path) := by
  induction paths generalizing p with
  | nil => simp [checkFiles]
  | cons path paths ih =>
    obtain ⟨h1, h2⟩ := List.pairwise_cons.1 ha
    unfold checkFiles
    split
    · rename_i next hs
      have hfree : ¬ (fix = true ∧ Refused parse p.disk path) := by
        intro h
        obtain ⟨r, hr⟩ : ∃ r, p.step parse fix root path = .error r := step_eq_error_iff.2 h
        simp [hs] at hr
      have hlater : ∀ q ∈ paths, (Refused parse next.disk q ↔ Refused parse p.disk q) := fun q hq =>
        Refused.of_read (step_read hs (h1 q hq))
      rw [ih (h2.imp fun h => h.of_shape (step_changes hs).shape)]
      constructor
      · intro h hfix q hq
        rcases List.mem_cons.1 hq with rfl | hq
        · exact fun hr => hfree ⟨hfix, hr⟩
        · rw [← hlater q hq]
          exact h hfix q hq
      · intro h hfix q hq
        rw [hlater q hq]
        exact h hfix q (List.mem_cons_of_mem _ hq)
    · rename_i r hs
      obtain ⟨hfix, hr⟩ := step_eq_error_iff.1 ⟨r, hs⟩
      simp only [reduceCtorEq, false_iff]
      exact fun h => h hfix path (by simp) hr

/-- A run to the end puts each file among its reports or its failures, both in the order of the files. -/
theorem checkFiles_partition {paths : List Path} {p : Progress} (hend : (checkFiles parse fix root paths p).2 = none) :
    ∃ reported failed : List Path, reported.Sublist paths ∧ failed.Sublist paths ∧ (reported ++ failed).Perm paths ∧
      (checkFiles parse fix root paths p).1.result.reports.map (·.path) =
        p.result.reports.map (·.path) ++ reported.map (Scan.relative root) ∧
      (checkFiles parse fix root paths p).1.result.failed = p.result.failed ++ failed.map (Scan.relative root) := by
  induction paths generalizing p with
  | nil => exact ⟨[], [], by simp, by simp, by simp, by simp [checkFiles], by simp [checkFiles]⟩
  | cons path paths ih =>
    cases hs : p.step parse fix root path with
    | error r => simp [checkFiles, hs] at hend
    | ok next =>
      have hrun : checkFiles parse fix root (path :: paths) p = checkFiles parse fix root paths next := by
        simp [checkFiles, hs]
      rw [hrun] at hend ⊢
      obtain ⟨reported, failed, hr, hf, hperm, hreports, hfailed⟩ := ih hend
      rw [hreports, hfailed]
      rcases step_eq_ok hs with ⟨report, d', hc, rfl⟩ | ⟨message, rfl⟩
      · have hname := (checkFile_eq_ok hc).1
        refine ⟨path :: reported, failed, hr.cons_cons path, hf.cons path, hperm.cons path, ?_, rfl⟩
        simp [Progress.addReport, hname]
      · refine ⟨reported, path :: failed, hr.cons path, hf.cons_cons path, ?_, rfl, ?_⟩
        · exact List.perm_middle.trans (hperm.cons path)
        · simp [Progress.addFailure]

/-- On trees with nested extents edits are refused exactly if calls are tangled. -/
theorem refused_iff {path : Path} (hparse : ∀ source, (parse source).Spanned source.length) :
    Refused parse d path ↔ ∃ source, d.read path = .ok source ∧ (parse source).strict = .ok (parse source) ∧
      Offense.Tangled source (parse source) := by
  have key : ∀ source, (∃ r, Edit.apply source (checkTree source (parse source)).edits = .error r) ↔
      Offense.Tangled source (parse source) := by
    intro source
    rw [← not_iff_not, ← Offense.accepted_iff_not_tangled (hparse source), ← Edit.apply_eq_ok_iff]
    cases Edit.apply source (checkTree source (parse source)).edits <;> simp
  simp only [Refused, key]

/-- Once the files are found, the run has a result unless it is to correct a valid file in which calls are
tangled; and then each file found is named once in the reports and failures together, both in order. -/
theorem checkWith_completes_iff (parse : Parser) (hparse : ∀ source, (parse source).Spanned source.length) (fix : Bool)
    (given : Option Settings) (root : Path) (d : Disk) (settings : Settings) (log : List Log.Event) (found : Scan.Found)
    (hset : settingsFor given root d = .ok (settings, log)) (hfind : Scan.find d root settings.toSelection = .ok found) :
    ((∃ result, (checkWith parse fix given root d).result = .ok result) ↔
      (fix = true → ∀ path ∈ found.files, ∀ source, d.read path = .ok source →
        (parse source).strict = .ok (parse source) → ¬ Offense.Tangled source (parse source))) ∧
    ∀ result, (checkWith parse fix given root d).result = .ok result →
      (result.reports.map (·.path) ++ result.failed).Perm (found.files.map (Scan.relative root)) ∧
      (found.files.map (Scan.relative root)).Nodup ∧
      (result.reports.map (·.path)).Sublist (found.files.map (Scan.relative root)) ∧
      result.failed.Sublist (found.files.map (Scan.relative root)) := by
  obtain ⟨-, hresult⟩ := checkWith_eq parse fix hset
  obtain ⟨-, hres⟩ := check_eq parse fix hfind
  rw [hresult]
  constructor
  · have hends : (checkFiles parse fix root found.files ⟨d, found.log, ⟨[], []⟩⟩).2 = none ↔
        (fix = true → ∀ path ∈ found.files, ¬ Refused parse d path) := checkFiles_ends_iff (pairwise_apart hfind)
    constructor
    · rintro ⟨result, hr⟩ hfix path hp source hread hvalid htangled
      refine hends.1 (hres result hr).1 hfix path hp ?_
      exact (refused_iff hparse).2 ⟨source, hread, hvalid, htangled⟩
    · intro h
      refine ⟨_, check_result parse fix hfind (hends.2 fun hfix path hp hrefused => ?_)⟩
      obtain ⟨source, hread, hvalid, htangled⟩ := (refused_iff hparse).1 hrefused
      exact h hfix path hp source hread hvalid htangled
  · intro result hr
    obtain ⟨hend, rfl⟩ := hres result hr
    obtain ⟨reported, failed, hsub, hsub', hperm, hreports, hfailed⟩ := checkFiles_partition hend
    rw [hreports, hfailed]
    simp only [List.map_nil, List.nil_append]
    refine ⟨?_, ?_, hsub.map _, hsub'.map _⟩
    · rw [← List.map_append]
      exact hperm.map _
    · refine (Scan.nodup_files hfind).map_on fun p hp q hq heq => ?_
      exact Scan.relative_injective (Scan.listed_of_find hfind hp).below (Scan.listed_of_find hfind hq).below heq

namespace Heredoc

open Sample (before after)

/-- A call whose receiver and selector stand on both sides of a heredoc's body, which holds a call as well. -/
def text : Bytes := Bytes.ofString "foo(<<~X, Timecop\n  #\x7bTimecop.freeze\x7d\nX\n  .freeze)\n"

/-- The row and column of an offset in the text. -/
def pointAt (offset : Nat) : Point :=
  ⟨(text.take offset).count 10, ((text.take offset).reverse.takeWhile (· != 10)).length⟩

def node (kind : String) (start stop : Nat) (field : Option String) (cs : List Node) : Node :=
  ⟨kind, ⟨start, stop, pointAt start, pointAt stop⟩, true, false, false, field, cs⟩

def token (kind : String) (start stop : Nat) (field : Option String) : Node :=
  { node kind start stop field [] with named := false }

def tree : Node :=
  node "program" 0 51 none [node "call" 0 50 none
    [node "identifier" 0 3 (some "method") [],
     node "argument_list" 3 50 (some "arguments")
      [token "(" 3 4 none, node "heredoc_beginning" 4 8 none [], token "," 8 9 none,
       node "call" 10 49 none
        [node "constant" 10 17 (some "receiver") [],
         node "heredoc_body" 17 39 none
          [token "heredoc_body_start" 17 17 none, node "heredoc_content" 18 20 none [],
           node "interpolation" 20 37 none
            [token "#\x7b" 20 22 none,
             node "call" 22 36 none
              [node "constant" 22 29 (some "receiver") [], token "." 29 30 (some "operator"),
               node "identifier" 30 36 (some "method") []],
             token "\x7d" 36 37 none],
           node "heredoc_content" 37 38 none [], node "heredoc_end" 38 39 none []],
         token "." 42 43 (some "operator"), node "identifier" 43 49 (some "method") []],
       token ")" 49 50 none]]]

/-- Knows the trees of the sample texts, and reads nothing in any other. -/
def parser : Parser := fun source =>
  if source == text then tree
  else if source == before || source == after then Sample.parser source
  else ⟨"program", ⟨0, source.length, ⟨0, 0⟩, ⟨0, source.length⟩⟩, true, false, false, none, []⟩

theorem parser_spanned (source : Bytes) : (parser source).Spanned source.length := by
  unfold parser
  split
  · rename_i h
    rw [show source = text by simpa using h]
    decide
  · split
    · rename_i h
      rcases (by simpa using h : source = before ∨ source = after) with rfl | rfl <;> decide
    · intro n hn
      obtain rfl : n = _ := by simpa [Node.nodes, Node.nodesOf] using hn
      exact ⟨by simp [Node.start], by simp [Node.start, Node.stop], by simp [Node.stop], by simp, by simp⟩

/-- A file that can be corrected, and behind it one with tangled calls. -/
def disk : Disk := ⟨[(["w"], .directory), (["w", "a.rb"], .file before), (["w", "b.rb"], .file text)]⟩

theorem find_eq : Scan.find disk ["w"] ({} : Settings).toSelection = .ok ⟨[["w", "a.rb"], ["w", "b.rb"]], []⟩ := by cbv

theorem checkFile_first : checkFile parser true disk ["w", "a.rb"] "a.rb" =
    .ok ({ path := "a.rb", corrected := 1 }, disk.write ["w", "a.rb"] after) := by
  have hread : disk.read ["w", "a.rb"] = .ok before := by cbv
  have hbefore : parser before = Sample.parser before := rfl
  have hleft : (checkTree after (parser after)).diagnostics = [] := Sample.diagnostics_after
  have hcorrected : Corrected parser before after := by
    obtain ⟨h1, h2, h3, h4⟩ := Sample.corrected_before
    exact ⟨h1, h2, h3, h4⟩
  rw [checkFile_of_corrected "a.rb" hread hcorrected, hleft, hbefore, Sample.edits_before]
  rfl

theorem checkFile_second : checkFile parser true (disk.write ["w", "a.rb"] after) ["w", "b.rb"] "b.rb" =
    .error (.edits (.overlap ⟨10, 49, "freeze_time"⟩ ⟨22, 36, "freeze_time"⟩)) := by
  have hread : (disk.write ["w", "a.rb"] after).read ["w", "b.rb"] = .ok text := by cbv
  have hedits : (checkTree text (parser text)).edits = [⟨10, 49, "freeze_time"⟩, ⟨22, 36, "freeze_time"⟩] := by
    rw [Offense.checkTree_edits]
    decide +kernel
  refine checkFile_eq_edits.2 ⟨text, hread, checkBytes_eq_edits.2 ⟨rfl, rfl, ?_⟩⟩
  rw [hedits]
  cbv

theorem checkFiles_eq : checkFiles parser true ["w"] [["w", "a.rb"], ["w", "b.rb"]] ⟨disk, [], ⟨[], []⟩⟩ =
    (Progress.addReport ⟨disk, [], ⟨[], []⟩⟩ (disk.write ["w", "a.rb"] after) { path := "a.rb", corrected := 1 },
      some (.overlap ⟨10, 49, "freeze_time"⟩ ⟨22, 36, "freeze_time"⟩)) := by
  have hfirst : Scan.relative ["w"] ["w", "a.rb"] = "a.rb" := rfl
  have hsecond : Scan.relative ["w"] ["w", "b.rb"] = "b.rb" := rfl
  have hstep : Progress.step parser true ["w"] ⟨disk, [], ⟨[], []⟩⟩ ["w", "a.rb"] =
      .ok (Progress.addReport ⟨disk, [], ⟨[], []⟩⟩ (disk.write ["w", "a.rb"] after)
        { path := "a.rb", corrected := 1 }) := by
    simp [Progress.step, hfirst, checkFile_first]
  have hstop : ∀ p : Progress, p.disk = disk.write ["w", "a.rb"] after → p.step parser true ["w"] ["w", "b.rb"] =
      .error (.overlap ⟨10, 49, "freeze_time"⟩ ⟨22, 36, "freeze_time"⟩) := by
    intro p hp
    simp [Progress.step, hsecond, hp, checkFile_second]
  rw [checkFiles, hstep]
  simp only
  rw [checkFiles, hstop _ rfl]

theorem checkWith_eq : (checkWith parser true (some {}) ["w"] disk).result =
      .error (.edits (.overlap ⟨10, 49, "freeze_time"⟩ ⟨22, 36, "freeze_time"⟩)) ∧
    (checkWith parser true (some {}) ["w"] disk).disk = disk.write ["w", "a.rb"] after := by
  have hset : settingsFor (some {}) ["w"] disk = .ok ({}, []) := rfl
  obtain ⟨hdisk, hresult⟩ := Run.checkWith_eq parser true hset
  rw [hdisk, hresult]
  unfold check
  rw [find_eq]
  simp only [checkFiles_eq, Progress.addReport, and_self]

/-- The hypotheses hold for this parser and disk: a check lists both files, and the run that corrects stops
because calls are tangled. -/
theorem completes_iff_heredoc : (∀ source, (parser source).Spanned source.length) ∧
    (∃ result, (checkWith parser false (some {}) ["w"] disk).result = .ok result ∧
      (result.reports.map (·.path) ++ result.failed).Perm ["a.rb", "b.rb"]) ∧
    ∃ source, Offense.Tangled source (parser source) := by
  have hnames : [["w", "a.rb"], ["w", "b.rb"]].map (Scan.relative ["w"]) = ["a.rb", "b.rb"] := rfl
  refine ⟨parser_spanned, ?_, ?_⟩
  · obtain ⟨hiff, hparts⟩ :=
      checkWith_completes_iff parser parser_spanned false (some {}) ["w"] disk {} [] _ rfl find_eq
    obtain ⟨result, hr⟩ := hiff.2 (by simp)
    have hperm := (hparts result hr).1
    rw [hnames] at hperm
    exact ⟨result, hr, hperm⟩
  · by_contra hno
    have hiff := (checkWith_completes_iff parser parser_spanned true (some {}) ["w"] disk {} [] _ rfl find_eq).1
    obtain ⟨result, hr⟩ := hiff.2 fun _ path _ source _ _ htangled => hno ⟨source, htangled⟩
    rw [checkWith_eq.1] at hr
    cases hr

/-- A run broken off by the content of a file: the file before it is corrected on disk and has no report. -/
theorem heredoc_stops_run : (∀ source, (parser source).Spanned source.length) ∧
    Scan.find disk ["w"] ({} : Settings).toSelection = .ok ⟨[["w", "a.rb"], ["w", "b.rb"]], []⟩ ∧
    (¬ ∃ result, (checkWith parser true (some {}) ["w"] disk).result = .ok result) ∧
    disk.read ["w", "a.rb"] = .ok before ∧ (checkWith parser true (some {}) ["w"] disk).disk.read ["w", "a.rb"] = .ok after := by
  refine ⟨parser_spanned, find_eq, ?_, by cbv, ?_⟩
  · rw [checkWith_eq.1]
    simp
  · rw [checkWith_eq.2]
    cbv

end Heredoc

end TimeLint.Run
