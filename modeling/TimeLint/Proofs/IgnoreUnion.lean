import Mathlib
import TimeLint.Proofs.ExactDiscovery

/-! Ignore files in subdirectories. Each speaks for what lies under its own directory and for that directory itself,
and together they ignore what one of them ignores: a file elsewhere is passed over, whatever its rules are and
wherever it stands among the others. With the files of subdirectories a scan finds no more than without them. -/

namespace TimeLint

namespace Ignore

variable {f : File} {path : Path} {rules : List Rule}

namespace File

theorem view_inside (h : f.base <+: path.tidy) : ∃ text, f.view path = .ok text := by
  rw [view, Path.below?, if_pos (List.isPrefixOf_iff_prefix.2 h)]
  exact ⟨_, rfl⟩

theorem view_outside (h : ¬ f.base <+: path.tidy) : f.view path = .error (.outside path.tidy f.base) := by
  rw [view, Path.below?, if_neg (fun hp => h (List.isPrefixOf_iff_prefix.1 hp))]

theorem firstMatch_inside (h : f.base <+: path.tidy) (hr : ∀ r ∈ rules, r.expression ≠ none) :
    ∃ found, f.firstMatch path rules = .ok found := by
  obtain ⟨text, htext⟩ := view_inside h
  induction rules with
  | nil => exact ⟨none, rfl⟩
  | cons r rules ih =>
    obtain ⟨found, hfound⟩ := ih fun r' hr' => hr r' (by simp [hr'])
    obtain ⟨expression, hexpression⟩ := Option.ne_none_iff_exists'.1 (hr r (by simp))
    have hmatch : f.ruleMatches path r = .ok (expression.occurs text.toList) := by
      rw [ruleMatches, htext]
      simp [Rule.matches?, hexpression, bind, Except.bind, pure, Except.pure]
    rw [firstMatch, hmatch]
    cases expression.occurs text.toList with
    | true => exact ⟨some r, rfl⟩
    | false => exact ⟨found, hfound⟩

theorem firstMatch_outside (h : ¬ f.base <+: path.tidy) (hne : rules ≠ []) :
    f.firstMatch path rules = .error (.outside path.tidy f.base) := by
  cases rules with
  | nil => exact absurd rfl hne
  | cons r rules =>
    rw [firstMatch, ruleMatches, view_outside h]
    rfl

theorem ignores_inside (h : f.base <+: path.tidy) (hr : ∀ r ∈ f.rules, r.expression ≠ none) :
    ∃ b, f.ignores path = .ok b := by
  obtain ⟨found, hfound⟩ := firstMatch_inside h hr
  have hreverse : ∀ r ∈ f.rules.reverse, r.expression ≠ none := fun r hm => hr r (List.mem_reverse.1 hm)
  obtain ⟨last, hlast⟩ := firstMatch_inside h hreverse
  rw [ignores, hfound, hlast]
  split
  · exact ⟨_, rfl⟩
  · exact ⟨_, rfl⟩

/-- Outside of its directory a file has nothing to say: without rules it ignores nothing, and any rule refuses. -/
theorem ignores_outside (h : ¬ f.base <+: path.tidy) :
    f.ignores path = .ok false ∨ f.ignores path = .error (.outside path.tidy f.base) := by
  by_cases hne : f.rules = []
  · left
    simp [ignores, hne, firstMatch, bind, Except.bind, pure, Except.pure]
  · right
    rw [ignores, firstMatch_outside h hne, firstMatch_outside h (fun hn => hne (List.reverse_eq_nil_iff.1 hn))]
    split <;> rfl

theorem base_of_ignores (h : f.ignores path = .ok true) : f.base <+: path.tidy := by
  by_contra hout
  rcases ignores_outside hout with h' | h'
  · simp [h'] at h
  · simp [h'] at h

theorem not_meaningless (hr : ∀ r ∈ f.rules, r.expression ≠ none) : f.ignores path ≠ .error .meaningless := by
  by_cases hin : f.base <+: path.tidy
  · obtain ⟨b, hb⟩ := ignores_inside hin hr
    simp [hb]
  · rcases ignores_outside hin with h | h
    · simp [h]
    · simp [h]

end File

/-- Several files ignore what one of them ignores. -/
theorem someIgnores_iff {files : List File} (h : ∀ f ∈ files, f.ignores path ≠ .error .meaningless) :
    ∃ b, Matcher.someIgnores path files = .ok b ∧ (b = true ↔ ∃ f ∈ files, f.ignores path = .ok true) := by
  induction files with
  | nil => exact ⟨false, rfl, by simp⟩
  | cons f files ih =>
    obtain ⟨b, hb, hiff⟩ := ih fun g hg => h g (by simp [hg])
    have hf := h f (by simp)
    rw [Matcher.someIgnores]
    match hanswer : f.ignores path with
    | .ok true => exact ⟨true, rfl, by simp [hanswer]⟩
    | .ok false => exact ⟨b, hb, by simp [hiff, hanswer]⟩
    | .error (.outside _ _) => exact ⟨b, hb, by simp [hiff, hanswer]⟩
    | .error .meaningless => exact absurd hanswer hf

end Ignore

namespace Scan

variable {d : Disk} {root : Path} {dir names : List String}

/-- Every ignore file under the directory can be read, and every rule in it has a meaning. -/
def Legible (d : Disk) (root : Path) : Prop :=
  ∀ dir base content, d.Reached root (dir ++ [ignoreName]) base (.file content) →
    ∃ rules, Ignore.parse content = .ok rules ∧ ∀ r ∈ rules, r.expression ≠ none

/-- `f` is the ignore file in the directory that the names lead to from `root`, through directories alone. -/
structure HasIgnoreFile (d : Disk) (root : Path) (dir : List String) (f : Ignore.File) : Prop where
  reached : ∃ base content, d.Reached root (dir ++ [ignoreName]) base (.file content) ∧ Ignore.parse content = .ok f.rules
  base : f.base = Path.tidy root ++ dir

/-- The disks agree on the directories from `root` down the names and on the ignore files in them. -/
structure AgreeAlong (d d' : Disk) (root : Path) (names : List String) : Prop where
  start : d'.locate root = d.locate root
  directory : ∀ base e dir, d.locate root = .ok (base, e) → dir <+: names → d'.entry? (base ++ dir) = d.entry? (base ++ dir)
  ignoreFile : ∀ base e dir, d.locate root = .ok (base, e) → dir <+: names →
    d'.entry? (base ++ (dir ++ [ignoreName])) = d.entry? (base ++ (dir ++ [ignoreName]))

theorem mem_ignoreFiles {path : Path} : path ∈ ignoreFiles d root ↔
    ∃ dir base content, path = root ++ (dir ++ [ignoreName]) ∧ d.Reached root (dir ++ [ignoreName]) base (.file content) := by
  simp only [ignoreFiles, List.mem_mergeSort, List.mem_eraseDups, List.mem_filter, Bool.and_eq_true, beq_iff_eq]
  refine ⟨?_, ?_⟩
  · intro h
    obtain ⟨hbelow, hlast, hplain⟩ := h
    obtain ⟨names, base, e, hne, rfl, hr⟩ := Disk.mem_below_iff.1 hbelow
    obtain ⟨content, rfl⟩ := (hr.isPlainFile_iff hne).1 hplain
    obtain ⟨dir, rfl⟩ : ∃ dir, names = dir ++ [ignoreName] := by
      rw [List.getLast?_append_of_ne_nil _ hne] at hlast
      exact ⟨_, (List.dropLast_append_getLast? _ hlast).symm⟩
    exact ⟨dir, base, content, rfl, hr⟩
  · intro h
    obtain ⟨dir, base, content, hpath, hr⟩ := h
    have hne : dir ++ [ignoreName] ≠ [] := by simp
    subst hpath
    exact ⟨Disk.mem_below_iff.2 ⟨_, base, _, hne, rfl, hr⟩, by simp, (hr.isPlainFile_iff hne).2 ⟨content, rfl⟩⟩

theorem readIgnore_reached {base : Path} {content : Bytes} {rules : List Ignore.Rule}
    (hr : d.Reached root (dir ++ [ignoreName]) base (.file content)) (hrules : Ignore.parse content = .ok rules) :
    readIgnore d (root ++ (dir ++ [ignoreName])) = .ok ⟨Path.tidy root ++ dir, rules⟩ := by
  have hread : d.read (root ++ (dir ++ [ignoreName])) = .ok content :=
    Disk.read_of_locate (hr.locate (by simp) (by simp))
  have hbase : Path.tidy (root ++ (dir ++ [ignoreName])).dropLast = Path.tidy root ++ dir := by
    rw [← List.append_assoc, List.dropLast_concat]
    exact Path.tidy_append root fun n hn => Disk.isName_ne_up (hr.proper n (by simp [hn]))
  rw [readIgnore, hread, hbase]
  simp [hrules, bind, Except.bind, pure, Except.pure]

theorem readIgnore_iff (hl : Legible d root) {f : Ignore.File} :
    (∃ path ∈ ignoreFiles d root, readIgnore d path = .ok f) ↔ ∃ dir, HasIgnoreFile d root dir f := by
  refine ⟨?_, ?_⟩
  · intro h
    obtain ⟨path, hpath, hread⟩ := h
    obtain ⟨dir, base, content, rfl, hr⟩ := mem_ignoreFiles.1 hpath
    obtain ⟨rules, hrules, -⟩ := hl dir base content hr
    obtain rfl : ⟨Path.tidy root ++ dir, rules⟩ = f := by simpa [readIgnore_reached hr hrules] using hread
    exact ⟨dir, ⟨base, content, hr, hrules⟩, rfl⟩
  · intro h
    obtain ⟨dir, hreached, hbase⟩ := h
    obtain ⟨base, content, hr, hrules⟩ := hreached
    refine ⟨_, mem_ignoreFiles.2 ⟨dir, base, content, rfl, hr⟩, ?_⟩
    rw [readIgnore_reached hr hrules, ← hbase]

/-- The files that are asked are the ignore files under the directory. -/
theorem matcher_nested (hl : Legible d root) : ∃ m files, matcher d root true = .ok m ∧
    (∀ path, isIgnored m path = Ignore.Matcher.someIgnores path files) ∧
    ∀ f, f ∈ files ↔ ∃ dir, HasIgnoreFile d root dir f := by
  have hreads : ∀ path ∈ ignoreFiles d root, ∃ f, readIgnore d path = .ok f := by
    intro path hpath
    obtain ⟨dir, base, content, rfl, hr⟩ := mem_ignoreFiles.1 hpath
    obtain ⟨rules, hrules, -⟩ := hl dir base content hr
    exact ⟨_, readIgnore_reached hr hrules⟩
  obtain ⟨files, hfiles, hmem⟩ := mapM_returns hreads
  have hiff : ∀ f, f ∈ files ↔ ∃ dir, HasIgnoreFile d root dir f := fun f => (hmem f).trans (readIgnore_iff hl)
  rw [matcher, if_pos rfl]
  cases hpaths : ignoreFiles d root with
  | nil =>
    obtain rfl : [] = files := by simpa [hpaths, pure, Except.pure] using hfiles
    exact ⟨none, [], rfl, fun _ => rfl, hiff⟩
  | cons p paths =>
    rw [hpaths] at hfiles
    refine ⟨some (.union files), files, ?_, fun _ => rfl, hiff⟩
    simp [hfiles, bind, Except.bind, pure, Except.pure]

theorem HasIgnoreFile.meaningful {f : Ignore.File} (h : HasIgnoreFile d root dir f) (hl : Legible d root) :
    ∀ r ∈ f.rules, r.expression ≠ none := by
  obtain ⟨base, content, hr, hrules⟩ := h.reached
  obtain ⟨rules, hrules', hmeaning⟩ := hl dir base content hr
  obtain rfl : rules = f.rules := by simpa using hrules'.symm.trans hrules
  exact hmeaning

theorem HasIgnoreFile.holds_of_ignores {f : Ignore.File} (h : HasIgnoreFile d root dir f)
    (hn : ∀ n ∈ names, Path.isName n = true) (hf : f.ignores (root ++ names) = .ok true) : dir <+: names := by
  have hbase := f.base_of_ignores hf
  rw [h.base, Path.tidy_append root fun n hm => Disk.isName_ne_up (hn n hm)] at hbase
  exact (List.prefix_append_right_inj _).1 hbase

theorem AgreeAlong.symm {d' : Disk} (ha : AgreeAlong d d' root names) : AgreeAlong d' d root names where
  start := ha.start.symm
  directory := fun base e dir hb hd => (ha.directory base e dir (ha.start ▸ hb) hd).symm
  ignoreFile := fun base e dir hb hd => (ha.ignoreFile base e dir (ha.start ▸ hb) hd).symm

theorem AgreeAlong.hasIgnoreFile {d' : Disk} {f : Ignore.File} (ha : AgreeAlong d d' root names) (hd : dir <+: names)
    (h : HasIgnoreFile d root dir f) : HasIgnoreFile d' root dir f := by
  obtain ⟨base, content, hr, hrules⟩ := h.reached
  refine ⟨⟨base, content, ⟨ha.start.trans hr.start, hr.proper, fun k hk => ?_, ?_⟩, hrules⟩, h.base⟩
  · have hk' : k ≤ dir.length := by
      rw [List.length_append, List.length_singleton] at hk
      omega
    have hdirectory := hr.directories k hk
    rw [List.take_append_of_le_length hk'] at hdirectory ⊢
    rw [ha.directory base _ _ hr.start ((List.take_prefix k dir).trans hd)]
    exact hdirectory
  · rw [ha.ignoreFile base _ _ hr.start hd]
    exact hr.entry

/-- The answer for a path is given by the ignore files of the directories that hold it and of the path itself. -/
theorem nested_iff (hl : Legible d root) {m : Option Ignore.Matcher} (hm : matcher d root true = .ok m)
    (hn : ∀ n ∈ names, Path.isName n = true) : ∃ b, isIgnored m (root ++ names) = .ok b ∧
      (b = true ↔ ∃ dir f, dir <+: names ∧ HasIgnoreFile d root dir f ∧ f.ignores (root ++ names) = .ok true) := by
  obtain ⟨m', files, hm', hanswer, hmem⟩ := matcher_nested hl
  obtain rfl : m = m' := by simpa using hm.symm.trans hm'
  have hmeaning : ∀ f ∈ files, f.ignores (root ++ names) ≠ .error .meaningless := by
    intro f hf
    obtain ⟨dir, hd⟩ := (hmem f).1 hf
    exact f.not_meaningless (hd.meaningful hl)
  obtain ⟨b, hb, hiff⟩ := Ignore.someIgnores_iff hmeaning
  refine ⟨b, (hanswer _).trans hb, hiff.trans ⟨?_, ?_⟩⟩
  · intro h
    obtain ⟨f, hf, hignores⟩ := h
    obtain ⟨dir, hd⟩ := (hmem f).1 hf
    exact ⟨dir, f, hd.holds_of_ignores hn hignores, hd, hignores⟩
  · intro h
    obtain ⟨dir, f, -, hd, hignores⟩ := h
    exact ⟨f, (hmem f).2 ⟨dir, hd⟩, hignores⟩

/-- Only a directory has an ignore file in it. -/
theorem HasIgnoreFile.isDirectory {f : Ignore.File} (h : HasIgnoreFile d root dir f) :
    d.isDirectory (root ++ dir) = true := by
  obtain ⟨base, content, hr, -⟩ := h.reached
  exact hr.parent.isDirectory

/-- The ignore file of the directory alone, if it is no link, ignores nothing that it would not ignore among others. -/
theorem matcher_alone (hl : Legible d root) (hlink : d.isLink (root ++ [ignoreName]) = false) :
    ∃ m, matcher d root false = .ok m ∧ ∀ names, (∀ n ∈ names, Path.isName n = true) →
      ∃ b, isIgnored m (root ++ names) = .ok b ∧
        (b = true → ∃ f, HasIgnoreFile d root [] f ∧ f.ignores (root ++ names) = .ok true) := by
  simp only [matcher, Bool.false_eq_true, if_false]
  cases hfile : d.isFile (root ++ [ignoreName]) with
  | false => exact ⟨none, rfl, fun names hn => ⟨false, rfl, by simp⟩⟩
  | true =>
    have hplain : isPlainFile d (root ++ [ignoreName]) = true := by simp [isPlainFile, hfile, hlink]
    obtain ⟨base, content, hr⟩ : ∃ base content, d.Reached root ([] ++ [ignoreName]) base (.file content) :=
      Disk.reached_of_plain (by decide) hplain
    obtain ⟨rules, hrules, hmeaning⟩ := hl [] base content hr
    have hread : readIgnore d (root ++ [ignoreName]) = .ok ⟨Path.tidy root ++ [], rules⟩ := readIgnore_reached hr hrules
    refine ⟨some (.single ⟨Path.tidy root ++ [], rules⟩), ?_, fun names hn => ?_⟩
    · simp [hread, bind, Except.bind, pure, Except.pure]
    · have hbase : Path.tidy root ++ [] <+: Path.tidy (root ++ names) := by
        rw [Path.tidy_append root fun n hm => Disk.isName_ne_up (hn n hm), List.append_nil]
        exact List.prefix_append _ _
      obtain ⟨b, hb⟩ := Ignore.File.ignores_inside (f := ⟨Path.tidy root ++ [], rules⟩) hbase hmeaning
      exact ⟨b, hb, fun htrue => ⟨_, ⟨⟨base, content, hr, hrules⟩, rfl⟩, htrue ▸ hb⟩⟩

/-- What is chosen with the ignore files of subdirectories is chosen without them as well. -/
theorem chosen_alone (hl : Legible d root) {m m' : Option Ignore.Matcher} (hm : matcher d root true = .ok m)
    (halone : ∀ names, (∀ n ∈ names, Path.isName n = true) → ∃ b, isIgnored m' (root ++ names) = .ok b ∧
      (b = true → ∃ f, HasIgnoreFile d root [] f ∧ f.ignores (root ++ names) = .ok true)) {s : Selection} {path : Path}
    (hp : path ∈ d.below root) (h : chooses d root m { s with nested := true } path = true) :
    chooses d root m' { s with nested := false } path = true := by
  obtain ⟨names, base, e, hne, rfl, hr⟩ := Disk.mem_below_iff.1 hp
  obtain ⟨hfile, hfree, hadmits⟩ := (chooses_iff hr hne).1 h
  obtain ⟨b, hb, hsome⟩ := halone names hr.proper
  cases b with
  | false => exact (chooses_iff hr hne).2 ⟨hfile, hb, hadmits⟩
  | true =>
    obtain ⟨f, hf, hignores⟩ := hsome rfl
    obtain ⟨b', hb', hiff⟩ := nested_iff hl hm hr.proper
    rw [hfree, hiff.2 ⟨[], f, List.nil_prefix, hf, hignores⟩] at hb'
    cases hb'

/-- Ignore files in subdirectories take files away from a scan and add none. -/
theorem find_sublist (hl : Legible d root) (hlink : d.isLink (root ++ [ignoreName]) = false) (s : Selection) :
    ∃ found found', find d root { s with nested := true } = .ok found ∧
      find d root { s with nested := false } = .ok found' ∧ found.files.Sublist found'.files := by
  obtain ⟨m, -, hm, -⟩ := matcher_nested hl
  obtain ⟨m', hm', halone⟩ := matcher_alone hl hlink
  have hnested : ∀ path ∈ d.below root, ∃ b, isIgnored m path = .ok b := by
    intro path hp
    obtain ⟨names, base, e, -, rfl, hr⟩ := Disk.mem_below_iff.1 hp
    obtain ⟨b, hb, -⟩ := nested_iff hl hm hr.proper
    exact ⟨b, hb⟩
  have hplain : ∀ path ∈ d.below root, ∃ b, isIgnored m' path = .ok b := by
    intro path hp
    obtain ⟨names, base, e, -, rfl, hr⟩ := Disk.mem_below_iff.1 hp
    obtain ⟨b, hb, -⟩ := halone names hr.proper
    exact ⟨b, hb⟩
  obtain ⟨found, hfound⟩ := find_returns (s := { s with nested := true }) hm hnested
  obtain ⟨found', hfound'⟩ := find_returns (s := { s with nested := false }) hm' hplain
  refine ⟨found, found', hfound, hfound', ?_⟩
  obtain ⟨n, hn, hfiles⟩ := find_files hfound
  obtain ⟨n', hn', hfiles'⟩ := find_files hfound'
  obtain rfl : m = n := by simpa using hm.symm.trans hn
  obtain rfl : m' = n' := by simpa using hm'.symm.trans hn'
  have hboth : found.files = found'.files.filter (chooses d root m { s with nested := true }) := by
    rw [hfiles, hfiles', List.filter_filter]
    refine List.filter_congr fun path hp => ?_
    rw [Bool.eq_iff_iff, Bool.and_eq_true]
    exact ⟨fun h => ⟨h, chosen_alone hl hm halone (mem_candidates.1 hp).1 h⟩, And.left⟩
  rw [hboth]
  exact List.filter_sublist

/-- Where the ignore files can be read and their rules have a meaning, a path is ignored exactly if an ignore file on the
way down to it ignores it, the file in the path itself included if that is a directory. For a path that is no
directory these are the files of the directories above it. Disks that agree on the way down give the same answer,
whatever ignore files they hold elsewhere. A scan with the files of subdirectories finds, in the same order, some of the
files that it finds without them, unless the directory's own ignore file is a link. -/
theorem nested_files_unite (d : Disk) (root : Path) (hl : Legible d root) :
    ∃ m, matcher d root true = .ok m ∧
      (∀ names : List String, (∀ n ∈ names, Path.isName n = true) →
        (∃ b, isIgnored m (root ++ names) = .ok b ∧
          (b = true ↔ ∃ dir f, dir <+: names ∧ HasIgnoreFile d root dir f ∧ f.ignores (root ++ names) = .ok true) ∧
          (d.isDirectory (root ++ names) = false → (b = true ↔
            ∃ dir f, dir <+: names.dropLast ∧ HasIgnoreFile d root dir f ∧ f.ignores (root ++ names) = .ok true))) ∧
        ∀ d' : Disk, Legible d' root → AgreeAlong d d' root names →
          ∃ m', matcher d' root true = .ok m' ∧ isIgnored m' (root ++ names) = isIgnored m (root ++ names)) ∧
      (d.isLink (root ++ [ignoreName]) = false → ∀ s : Selection, ∃ found found',
        find d root { s with nested := true } = .ok found ∧ find d root { s with nested := false } = .ok found' ∧
          found.files.Sublist found'.files) := by
  obtain ⟨m, -, hm, -⟩ := matcher_nested hl
  refine ⟨m, hm, fun names hn => ⟨?_, fun d' hl' ha => ?_⟩, fun hlink s => find_sublist hl hlink s⟩
  · obtain ⟨b, hb, hiff⟩ := nested_iff hl hm hn
    refine ⟨b, hb, hiff, fun hno => hiff.trans ⟨?_, ?_⟩⟩
    · intro h
      obtain ⟨dir, f, ⟨rest, hrest⟩, hf, hignores⟩ := h
      have hne : rest ≠ [] := by
        intro hnil
        rw [← hrest, hnil, List.append_nil, hf.isDirectory] at hno
        cases hno
      refine ⟨dir, f, ?_, hf, hignores⟩
      rw [← hrest, List.dropLast_append_of_ne_nil hne]
      exact List.prefix_append _ _
    · intro h
      obtain ⟨dir, f, hdir, hf, hignores⟩ := h
      exact ⟨dir, f, hdir.trans (List.dropLast_prefix names), hf, hignores⟩
  · obtain ⟨m', -, hm', -⟩ := matcher_nested hl'
    refine ⟨m', hm', ?_⟩
    obtain ⟨b, hb, hiff⟩ := nested_iff hl hm hn
    obtain ⟨b', hb', hiff'⟩ := nested_iff hl' hm' hn
    have hsame : b' = b := by
      rw [Bool.eq_iff_iff, hiff, hiff']
      refine ⟨?_, ?_⟩
      · intro h
        obtain ⟨dir, f, hdir, hf, hignores⟩ := h
        exact ⟨dir, f, hdir, ha.symm.hasIgnoreFile hdir hf, hignores⟩
      · intro h
        obtain ⟨dir, f, hdir, hf, hignores⟩ := h
        exact ⟨dir, f, hdir, ha.hasIgnoreFile hdir hf, hignores⟩
    rw [hb, hb', hsame]

/-- The rule that a star makes. -/
def star : Ignore.Rule := ⟨false, Ignore.read? "(^|[/])[^/]*$".toList⟩

/-- A directory with an ignore file that holds a star, beside a file. -/
def starred : Disk :=
  ⟨[(["w"], .directory), (["w", "b.rb"], .file []), (["w", "spec"], .directory), (["w", "spec", ".gitignore"], .file [42]),
    (["w", "spec", "a.rb"], .file [])]⟩

theorem star_ignores : Ignore.parse [42] = .ok [star] ∧ star.expression.isSome = true ∧
    (⟨["w", "spec"], [star]⟩ : Ignore.File).ignores ["w", "spec"] = .ok true ∧
    (⟨["w", "spec"], [star]⟩ : Ignore.File).ignores ["w", "spec", "a.rb"] = .ok true := by cbv

theorem reached_starred {base : Path} {content : Bytes} :
    starred.Reached ["w"] (dir ++ [ignoreName]) base (.file content) ↔ dir = ["spec"] ∧ base = ["w"] ∧ content = [42] := by
  have htop : starred.Stands [] .directory := .top
  have hroot : starred.locate ["w"] = .ok (["w"], .directory) := (htop.snoc (by decide) (by decide)).locate (by simp)
  refine ⟨fun hr => ?_, ?_⟩
  · obtain rfl : ["w"] = base := by simpa using hroot.symm.trans hr.start
    have hplace : ["w"] ++ (dir ++ [ignoreName]) ∈ starred.places := (Disk.mem_places (by simp)).2 ⟨_, hr.entry⟩
    have hlast : (["w"] ++ (dir ++ [ignoreName])).getLast? = some ".gitignore" := by
      rw [List.getLast?_append_of_ne_nil _ (by simp), List.getLast?_concat, ignoreName]
    generalize hp : ["w"] ++ (dir ++ [ignoreName]) = place at hplace hlast
    obtain rfl : place = ["w"] ++ (["spec"] ++ [ignoreName]) := by
      simp only [starred, Disk.places, List.map_cons, List.map_nil, List.mem_cons, List.not_mem_nil, or_false] at hplace
      rcases hplace with rfl | rfl | rfl | rfl | rfl
      all_goals first | rfl | simp at hlast
    obtain rfl := List.append_cancel_right (List.append_cancel_left hp)
    have hcontent : some (Entry.file [42]) = some (.file content) := hr.entry
    exact ⟨rfl, rfl, by simpa using hcontent.symm⟩
  · intro h
    obtain ⟨hdir, hbase, hcontent⟩ := h
    subst hdir hbase hcontent
    exact ⟨hroot, by decide, by decide, by decide⟩

theorem hasIgnoreFile_starred {f : Ignore.File} :
    HasIgnoreFile starred ["w"] dir f ↔ dir = ["spec"] ∧ f = ⟨["w", "spec"], [star]⟩ := by
  refine ⟨?_, ?_⟩
  · intro h
    obtain ⟨⟨base, content, hr, hrules⟩, hbase⟩ := h
    obtain ⟨rfl, -, rfl⟩ := reached_starred.1 hr
    obtain ⟨base', rules⟩ := f
    obtain rfl : [star] = rules := by simpa using star_ignores.1.symm.trans hrules
    obtain rfl : base' = ["w", "spec"] := hbase
    exact ⟨rfl, rfl⟩
  · intro h
    obtain ⟨hdir, hf⟩ := h
    subst hdir hf
    exact ⟨⟨["w"], [42], reached_starred.2 ⟨rfl, rfl, rfl⟩, star_ignores.1⟩, by decide⟩

theorem legible_starred : Legible starred ["w"] := by
  intro dir base content hr
  obtain ⟨-, -, rfl⟩ := reached_starred.1 hr
  exact ⟨[star], star_ignores.1, by simpa [Option.isSome_iff_ne_none] using star_ignores.2.1⟩

/-- The ignore file in a directory ignores the directory itself, though no file above it does. -/
theorem directory_ignored_from_within : Legible starred ["w"] ∧ ∃ m, matcher starred ["w"] true = .ok m ∧
    isIgnored m (["w"] ++ ["spec"]) = .ok true ∧
    ¬ ∃ dir f, dir <+: ["spec"].dropLast ∧ HasIgnoreFile starred ["w"] dir f ∧ f.ignores (["w"] ++ ["spec"]) = .ok true := by
  obtain ⟨m, -, hm, -⟩ := matcher_nested legible_starred
  refine ⟨legible_starred, m, hm, ?_, ?_⟩
  · have hnames : ∀ n ∈ ["spec"], Path.isName n = true := by decide
    obtain ⟨b, hb, hiff⟩ := nested_iff legible_starred hm hnames
    rw [hb, hiff.2 ⟨["spec"], _, List.prefix_rfl, hasIgnoreFile_starred.2 ⟨rfl, rfl⟩, star_ignores.2.2.1⟩]
  · intro h
    obtain ⟨dir, f, hdir, hf, hignores⟩ := h
    obtain ⟨rfl, -⟩ := hasIgnoreFile_starred.1 hf
    exact absurd hdir (by decide)

theorem starred_unite : ∃ m, matcher starred ["w"] true = .ok m ∧
    isIgnored m ["w", "spec", "a.rb"] = .ok true ∧ isIgnored m ["w", "b.rb"] = .ok false := by
  obtain ⟨m, hm, hanswers, -⟩ := nested_files_unite starred ["w"] legible_starred
  obtain ⟨⟨b, hb, hiff, -⟩, -⟩ := hanswers ["spec", "a.rb"] (by decide)
  obtain ⟨⟨b', hb', hiff', -⟩, -⟩ := hanswers ["b.rb"] (by decide)
  refine ⟨m, hm, ?_, ?_⟩
  · obtain rfl : b = true := hiff.2 ⟨["spec"], _, by decide, hasIgnoreFile_starred.2 ⟨rfl, rfl⟩, star_ignores.2.2.2⟩
    exact hb
  · obtain rfl : b' = false := by
      refine Bool.eq_false_iff.2 fun htrue => ?_
      obtain ⟨dir, f, hdir, hf, -⟩ := hiff'.1 htrue
      obtain ⟨rfl, -⟩ := hasIgnoreFile_starred.1 hf
      exact absurd hdir (by decide)
    exact hb'

end Scan

end TimeLint
