import TimeLint.Proofs.Listing

/-! A scan finds exactly the files that it has to find, each of them once, in the strict order of their relative paths.
Neither the order in which the entries of a disk are listed nor the order in which candidates are judged shows in
the result. -/

namespace TimeLint

theorem Selection.admits_iff {s : Selection} {path : String} : s.admits path = true ↔
    (s.included = [] ∨ ∃ pattern ∈ s.included, Pattern.Glob.fits pattern path = true) ∧
      ∀ pattern ∈ s.excluded, Pattern.Glob.fits pattern path = false := by
  simp only [Selection.admits, Pattern.fitsAny, Bool.and_eq_true, Bool.or_eq_true, List.isEmpty_iff, List.any_eq_true,
    Bool.not_eq_true', List.any_eq_false, Bool.not_eq_true]

namespace Scan

variable {d : Disk} {root : Path} {s : Selection} {m : Option Ignore.Matcher}

theorem precedes_iff {a b : Path} : precedes root a b = true ↔ relative root a ≤ relative root b := by
  rw [precedes, decide_eq_true_eq]

theorem pairwise_sorted (l : List Path) :
    (l.mergeSort (precedes root)).Pairwise fun a b => precedes root a b = true := by
  refine List.pairwise_mergeSort ?_ ?_ l
  · intro a b c hab hbc
    exact precedes_iff.2 (String.le_trans (precedes_iff.1 hab) (precedes_iff.1 hbc))
  · intro a b
    rw [Bool.or_eq_true, precedes_iff, precedes_iff]
    exact String.le_total _ _

/-- Listed paths are sorted in one way only. -/
theorem sorted_of_perm {l l' : List Path} (hp : l.Perm l') (hl : ∀ p ∈ l, p ∈ d.below root) :
    l.mergeSort (precedes root) = l'.mergeSort (precedes root) := by
  have hsorted := List.mergeSort_perm l (precedes root)
  have hsorted' := List.mergeSort_perm l' (precedes root)
  refine List.Perm.eq_of_pairwise ?_ (pairwise_sorted l) (pairwise_sorted l') (hsorted.trans (hp.trans hsorted'.symm))
  intro a b ha hb hab hba
  refine relative_injective (hl a (hsorted.mem_iff.1 ha)) (hl b (hp.mem_iff.2 (hsorted'.mem_iff.1 hb))) ?_
  exact String.le_antisymm (precedes_iff.1 hab) (precedes_iff.1 hba)

/-- Listed paths without repetition are in strict order once they are in order. -/
theorem strict_of_sorted {l : List Path} (hp : l.Pairwise fun a b => precedes root a b = true) (hn : l.Nodup)
    (hl : ∀ p ∈ l, p ∈ d.below root) : l.Pairwise fun a b => relative root a < relative root b := by
  refine (hp.and hn).imp_of_mem ?_
  intro a b ha hb ⟨hab, hne⟩
  refine String.not_le.1 fun hba => hne ?_
  exact relative_injective (hl a ha) (hl b hb) (String.le_antisymm (precedes_iff.1 hab) hba)

/-- The path is judged to be checked. -/
def chooses (d : Disk) (root : Path) (m : Option Ignore.Matcher) (s : Selection) (path : Path) : Bool :=
  match verdict d root m s path with
  | .ok .chosen => true
  | _ => false

theorem find_files {found : Found} (h : find d root s = .ok found) :
    ∃ m, matcher d root s.nested = .ok m ∧ found.files = (candidates d root).filter (chooses d root m s) := by
  unfold find at h
  obtain ⟨m, hm, h⟩ := bind_eq_ok.1 h
  obtain ⟨vs, hv, h⟩ := bind_eq_ok.1 h
  obtain ⟨hpaths, hverdicts⟩ := mapM_verdict (mapError_eq_ok.1 hv)
  obtain rfl : vs.foldr (fun (p, v) found => Found.add root p v found) ⟨[], []⟩ = found := by
    simpa [pure, Except.pure] using h
  refine ⟨m, mapError_eq_ok.1 hm, ?_⟩
  rw [files_gathered, ← hpaths, List.filter_map]
  refine congrArg _ (List.filter_congr fun x hx => ?_)
  rw [Function.comp, chooses, hverdicts x hx]
  cases x.2 <;> rfl

/-- Where no listed path is left undecided, a scan returns. -/
theorem find_returns (hm : matcher d root s.nested = .ok m) (h : ∀ path ∈ d.below root, ∃ b, isIgnored m path = .ok b) :
    ∃ found, find d root s = .ok found := by
  have hverdict : ∀ path ∈ candidates d root, ∃ x, (do return (path, ← verdict d root m s path)) = Except.ok x := by
    intro path hp
    obtain ⟨b, hb⟩ := h path (mem_candidates.1 hp).1
    unfold verdict
    rw [hb]
    split
    · exact ⟨_, rfl⟩
    · cases b <;> exact ⟨_, rfl⟩
  obtain ⟨vs, hvs, -⟩ := mapM_returns hverdict
  refine ⟨vs.foldr (fun (p, v) found => found.add root p v) ⟨[], []⟩, ?_⟩
  unfold find
  exact bind_eq_ok.2 ⟨m, mapError_eq_ok.2 hm, bind_eq_ok.2 ⟨vs, mapError_eq_ok.2 hvs, rfl⟩⟩

theorem relative_append (root : Path) (names : List String) : relative root (root ++ names) = Path.relativeText names := by
  rw [relative, List.drop_left]

/-- What a scan of `root` has to find: a file and no link, named like Ruby, that names lead to through directories
alone, that is not ignored, and that the patterns admit. -/
def Eligible (d : Disk) (root : Path) (m : Option Ignore.Matcher) (s : Selection) (path : Path) : Prop :=
  ∃ names base content, path = root ++ names ∧ d.Reached root names base (.file content) ∧ hasRubyName path = true ∧
    isIgnored m path = .ok false ∧
    (s.included = [] ∨ ∃ pattern ∈ s.included, Pattern.Glob.fits pattern (Path.relativeText names) = true) ∧
    ∀ pattern ∈ s.excluded, Pattern.Glob.fits pattern (Path.relativeText names) = false

theorem chooses_iff {names : List String} {base : Path} {e : Entry} (hr : d.Reached root names base e) (hne : names ≠ []) :
    chooses d root m s (root ++ names) = true ↔ (∃ content, e = .file content) ∧
      isIgnored m (root ++ names) = .ok false ∧ s.admits (Path.relativeText names) = true := by
  rw [← hr.isPlainFile_iff hne]
  cases hplain : isPlainFile d (root ++ names) with
  | false => simp [chooses, verdict, hplain, pure, Except.pure]
  | true =>
    obtain ⟨content, rfl⟩ := (hr.isPlainFile_iff hne).1 hplain
    have hwithin := hr.isWithin hne (by simp)
    simp only [chooses, verdict, hplain, hwithin, relative_append]
    rcases isIgnored m (root ++ names) with f | ignored
    · simp [bind, Except.bind]
    · cases ignored with
      | true => simp [bind, Except.bind, pure, Except.pure]
      | false => cases s.admits (Path.relativeText names) <;> simp [bind, Except.bind, pure, Except.pure]

theorem mem_chosen_iff {path : Path} :
    path ∈ d.below root ∧ hasRubyName path = true ∧ chooses d root m s path = true ↔ Eligible d root m s path := by
  refine ⟨?_, ?_⟩
  · rintro ⟨hbelow, hruby, hchosen⟩
    obtain ⟨names, base, e, hne, rfl, hr⟩ := Disk.mem_below_iff.1 hbelow
    obtain ⟨⟨content, rfl⟩, hignored, hadmits⟩ := (chooses_iff hr hne).1 hchosen
    exact ⟨names, base, content, rfl, hr, hruby, hignored, Selection.admits_iff.1 hadmits⟩
  · rintro ⟨names, base, content, rfl, hr, hruby, hignored, hadmits⟩
    have hne : names ≠ [] := by
      rintro rfl
      have hroot := (Disk.stands_of_follow .top hr.start).1.entry
      have hfile := hr.entry
      rw [List.append_nil, hroot] at hfile
      cases hfile
    exact ⟨Disk.mem_below_iff.2 ⟨names, base, _, hne, rfl, hr⟩, hruby,
      (chooses_iff hr hne).2 ⟨⟨content, rfl⟩, hignored, Selection.admits_iff.2 hadmits⟩⟩

section

variable {d' : Disk} (hd : ∀ place, d'.entry? place = d.entry? place)

include hd

theorem isPlainFile_congr (path : Path) : isPlainFile d' path = isPlainFile d path := by
  rw [isPlainFile, Disk.isFile_congr hd, Disk.isLink_congr hd, isPlainFile]

theorem sorted_below_congr {f f' : Path → Bool} (hf : ∀ path, f' path = f path) :
    ((d'.below root).filter f').eraseDups.mergeSort (precedes root) =
      ((d.below root).filter f).eraseDups.mergeSort (precedes root) := by
  refine sorted_of_perm (d := d) ((List.perm_ext_iff_of_nodup (nodup_eraseDups _) (nodup_eraseDups _)).2 fun path => ?_) ?_
  · simp only [List.mem_eraseDups, List.mem_filter, Disk.mem_below_congr hd, hf]
  · intro path hp
    rw [List.mem_eraseDups, List.mem_filter, Disk.mem_below_congr hd] at hp
    exact hp.1

theorem candidates_congr : candidates d' root = candidates d root := sorted_below_congr hd fun _ => rfl

theorem matcher_congr (nested : Bool) : matcher d' root nested = matcher d root nested := by
  have hfiles : ignoreFiles d' root = ignoreFiles d root :=
    sorted_below_congr hd fun path => by rw [isPlainFile_congr hd]
  have hread : readIgnore d' = readIgnore d := by
    funext path
    rw [readIgnore, Disk.read_congr hd, readIgnore]
  simp only [matcher, hfiles, hread, Disk.isFile_congr hd]

theorem verdict_congr {path : Path} (hp : path ∈ d.below root) : verdict d' root m s path = verdict d root m s path := by
  unfold verdict
  rw [isPlainFile_congr hd]
  cases hplain : isPlainFile d path with
  | false => rfl
  | true =>
    obtain ⟨names, base, e, hne, rfl, hr⟩ := Disk.mem_below_iff.1 hp
    obtain ⟨content, rfl⟩ := (hr.isPlainFile_iff hne).1 hplain
    have hr' := (Disk.reached_congr hd).2 hr
    rw [hr.isWithin hne (by simp), hr'.isWithin hne (by simp)]

/-- A scan sees what stands at each place, and nothing else of the disk. -/
theorem find_congr : find d' root s = find d root s := by
  have hverdicts : ∀ m, ((candidates d root).mapM fun p => do return (p, ← verdict d' root m s p)) =
      (candidates d root).mapM fun p => do return (p, ← verdict d root m s p) := by
    intro m
    refine mapM_congr fun path hp => ?_
    rw [verdict_congr hd (mem_candidates.1 hp).1]
  simp only [find, matcher_congr hd, candidates_congr hd, hverdicts]

end

/-- The files found stand in strict order of their relative paths, by code points. They are those that have to be found.
Another disk that holds the same at each place gives the same files, and so does any order in which the candidates
are judged. -/
theorem find_exact (d : Disk) (root : Path) (s : Selection) (found : Found) (h : find d root s = .ok found) :
    ∃ m, matcher d root s.nested = .ok m ∧
      found.files.Pairwise (fun a b => relative root a < relative root b) ∧
      (∀ path, path ∈ found.files ↔ Eligible d root m s path) ∧
      (∀ d' : Disk, (∀ place, d'.entry? place = d.entry? place) → find d' root s = .ok found) ∧
      ∀ order : List Path, order.Perm (candidates d root) →
        (order.filter (chooses d root m s)).mergeSort (precedes root) = found.files := by
  obtain ⟨m, hm, hfiles⟩ := find_files h
  have hbelow : ∀ path ∈ candidates d root, path ∈ d.below root := fun path hp => (mem_candidates.1 hp).1
  have hsub : found.files.Sublist (candidates d root) := hfiles ▸ List.filter_sublist
  have hsorted : found.files.Pairwise fun a b => precedes root a b = true := (pairwise_sorted _).sublist hsub
  refine ⟨m, hm, ?_, fun path => ?_, fun d' hd => (find_congr hd).trans h, fun order horder => ?_⟩
  · exact strict_of_sorted hsorted (nodup_files h) fun path hp => hbelow path (hsub.subset hp)
  · rw [hfiles, List.mem_filter, mem_candidates, and_assoc, mem_chosen_iff]
  · have hperm : (order.filter (chooses d root m s)).Perm found.files := hfiles ▸ horder.filter _
    rw [sorted_of_perm hperm fun path hp => hbelow path (horder.mem_iff.1 (List.mem_filter.1 hp).1)]
    exact List.mergeSort_of_pairwise hsorted

/-- A directory named like a Ruby file, a link back up to the directory that holds it, and a link to a file. -/
def linked : Disk :=
  ⟨[(["w"], .directory), (["w", "up"], .link "."), (["w", "x.rb"], .directory), (["w", "x.rb", "a.rb"], .file []),
    (["w", "z.rb"], .link "x.rb/a.rb")]⟩

theorem find_linked : ∃ found, find linked ["w"] {} = .ok found ∧
    ∀ path, path ∈ found.files ↔ path = ["w", "x.rb", "a.rb"] := by
  have htop : linked.Stands [] .directory := .top
  have hroot : linked.locate ["w"] = .ok (["w"], .directory) := (htop.snoc (by decide) (by decide)).locate (by simp)
  have hm : matcher linked ["w"] false = .ok none := by
    have hdirectory : linked.entry? ["w"] = some .directory := by decide
    have hmissing : linked.entry? ["w", ".gitignore"] = none := by decide
    simp [matcher, Disk.isFile, Disk.locate, Disk.follow, hdirectory, hmissing, ignoreName, pure, Except.pure]
  obtain ⟨found, hfound⟩ := find_returns (s := {}) hm fun _ _ => ⟨false, rfl⟩
  obtain ⟨m, hm', -, hmem, -⟩ := find_exact linked ["w"] {} found hfound
  obtain rfl : none = m := by simpa using hm.symm.trans hm'
  refine ⟨found, hfound, fun path => (hmem path).trans ⟨?_, ?_⟩⟩
  · rintro ⟨names, base, content, rfl, hr, -⟩
    obtain rfl : ["w"] = base := by simpa using hroot.symm.trans hr.start
    have hplace : ["w"] ++ names ∈ linked.places := (Disk.mem_places (by simp)).2 ⟨_, hr.entry⟩
    have hentry := hr.entry
    simp only [linked, Disk.places, List.map_cons, List.map_nil, List.mem_cons, List.cons_append, List.nil_append,
      List.cons.injEq, true_and, List.not_mem_nil, or_false] at hplace
    rcases hplace with rfl | rfl | rfl | rfl | rfl
    all_goals first | rfl | simp [linked, Disk.entry?, List.lookup_cons] at hentry
  · rintro rfl
    exact ⟨["x.rb", "a.rb"], ["w"], [], rfl, ⟨hroot, by decide, by decide, by decide⟩, by decide +kernel, rfl, .inl rfl,
      by simp⟩

end Scan

end TimeLint
