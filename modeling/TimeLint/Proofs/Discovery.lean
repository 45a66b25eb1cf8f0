import TimeLint.Proofs.DiskPaths

/-! What a scan finds. Every file found is listed under the directory, is no link and lies within the
directory, and none is found twice. A scan depends on the shape of the disk and on its ignore files. -/

namespace TimeLint

theorem bind_eq_ok {ε α β : Type} {x : Except ε α} {f : α → Except ε β} {b : β} :
    (x >>= f) = .ok b ↔ ∃ a, x = .ok a ∧ f a = .ok b := by
  cases x with
  | error e => simp [bind, Except.bind]
  | ok a => simp [bind, Except.bind]

theorem bind_eq_error {ε α β : Type} {x : Except ε α} {f : α → Except ε β} {e : ε} :
    (x >>= f) = .error e ↔ x = .error e ∨ ∃ a, x = .ok a ∧ f a = .error e := by
  cases x with
  | error e => simp [bind, Except.bind]
  | ok a => simp [bind, Except.bind]

theorem mapError_eq_ok {ε ε' α : Type} {x : Except ε α} {f : ε → ε'} {a : α} : x.mapError f = .ok a ↔ x = .ok a := by
  cases x <;> simp [Except.mapError]

theorem mapError_eq_error {ε ε' α : Type} {x : Except ε α} {f : ε → ε'} {e : ε'} :
    x.mapError f = .error e ↔ ∃ e', x = .error e' ∧ f e' = e := by
  cases x <;> simp [Except.mapError]

theorem mapM_congr {ε α β : Type} {f g : α → Except ε β} {l : List α} (h : ∀ a ∈ l, f a = g a) : l.mapM f = l.mapM g := by
  induction l with
  | nil => rfl
  | cons a l ih => rw [List.mapM_cons, List.mapM_cons, h a (by simp), ih fun b hb => h b (by simp [hb])]

/-- Where no step fails the whole returns, and its results are those of the steps. -/
theorem mapM_returns {ε α β : Type} {f : α → Except ε β} {l : List α} (h : ∀ a ∈ l, ∃ b, f a = .ok b) :
    ∃ bs, l.mapM f = .ok bs ∧ ∀ b, b ∈ bs ↔ ∃ a ∈ l, f a = .ok b := by
  induction l with
  | nil => exact ⟨[], rfl, by simp⟩
  | cons a l ih =>
    obtain ⟨b, hb⟩ := h a (by simp)
    obtain ⟨bs, hbs, hmem⟩ := ih fun c hc => h c (by simp [hc])
    refine ⟨b :: bs, by simp [hb, hbs, bind, Except.bind, pure, Except.pure], fun c => ?_⟩
    simp [hmem, hb, eq_comm]

namespace Scan

variable {d : Disk} {root : Path} {s : Selection}

theorem nodup_eraseDups (l : List Path) : l.eraseDups.Nodup := by
  match l with
  | [] => simp
  | a :: l =>
    rw [List.eraseDups_cons, List.nodup_cons]
    refine ⟨?_, nodup_eraseDups _⟩
    rw [List.mem_eraseDups]
    simp
termination_by l.length
decreasing_by
  simp only [List.length_cons]
  exact Nat.lt_succ_of_le (List.length_filter_le _ _)

theorem nodup_candidates (d : Disk) (root : Path) : (candidates d root).Nodup :=
  (List.mergeSort_perm _ _).nodup_iff.2 (nodup_eraseDups _)

theorem mem_candidates {path : Path} : path ∈ candidates d root ↔ path ∈ d.below root ∧ hasRubyName path = true := by
  rw [candidates, List.mem_mergeSort, List.mem_eraseDups, List.mem_filter]

/-- Verdicts on all paths, where none of them fails. -/
theorem mapM_verdict {m : Option Ignore.Matcher} {paths : List Path} {vs : List (Path × Verdict)}
    (h : (paths.mapM fun p => do return (p, ← verdict d root m s p)) = .ok vs) :
    vs.map (·.1) = paths ∧ ∀ x ∈ vs, verdict d root m s x.1 = .ok x.2 := by
  induction paths generalizing vs with
  | nil =>
    obtain rfl : [] = vs := by simpa [pure, Except.pure] using h
    simp
  | cons p paths ih =>
    rw [List.mapM_cons] at h
    obtain ⟨x, hx, h⟩ := bind_eq_ok.1 h
    obtain ⟨v, hv, hp⟩ := bind_eq_ok.1 hx
    obtain ⟨rest, hr, hvs⟩ := bind_eq_ok.1 h
    obtain rfl : (p, v) = x := by simpa [pure, Except.pure] using hp
    obtain rfl : (p, v) :: rest = vs := by simpa [pure, Except.pure] using hvs
    obtain ⟨h1, h2⟩ := ih hr
    refine ⟨by simp [h1], ?_⟩
    intro x hx
    rcases List.mem_cons.1 hx with rfl | hx
    · exact hv
    · exact h2 x hx

/-- The files gathered from verdicts are those that were chosen, in their order. -/
theorem files_gathered (vs : List (Path × Verdict)) :
    (vs.foldr (fun (p, v) found => Found.add root p v found) ⟨[], []⟩).files =
      (vs.filter (·.2 == .chosen)).map (·.1) := by
  induction vs with
  | nil => rfl
  | cons x vs ih =>
    obtain ⟨p, v⟩ := x
    cases v <;> simpa [Found.add] using ih

theorem find_eq_ok {found : Found} (h : find d root s = .ok found) :
    ∃ m, matcher d root s.nested = .ok m ∧ found.files.Sublist (candidates d root) ∧
      ∀ p ∈ found.files, verdict d root m s p = .ok .chosen := by
  unfold find at h
  obtain ⟨m, hm, h⟩ := bind_eq_ok.1 h
  obtain ⟨vs, hv, h⟩ := bind_eq_ok.1 h
  obtain ⟨h1, h2⟩ := mapM_verdict (mapError_eq_ok.1 hv)
  obtain rfl : vs.foldr (fun (p, v) found => Found.add root p v found) ⟨[], []⟩ = found := by
    simpa [pure, Except.pure] using h
  refine ⟨m, mapError_eq_ok.1 hm, ?_, ?_⟩
  · rw [files_gathered, ← h1]
    exact List.filter_sublist.map _
  · intro p hp
    rw [files_gathered, List.mem_map] at hp
    obtain ⟨x, hx, rfl⟩ := hp
    obtain ⟨hx, hc⟩ := List.mem_filter.1 hx
    rw [h2 x hx, show x.2 = .chosen by simpa using hc]

theorem nodup_files {found : Found} (h : find d root s = .ok found) : found.files.Nodup := by
  obtain ⟨-, -, hsub, -⟩ := find_eq_ok h
  exact hsub.nodup (nodup_candidates d root)

theorem verdict_chosen {m : Option Ignore.Matcher} {path : Path} (h : verdict d root m s path = .ok .chosen) :
    isPlainFile d path = true ∧ isWithin d root path = true := by
  by_contra hno
  have hpassed : (!isPlainFile d path || !isWithin d root path) = true := by
    cases hp : isPlainFile d path <;> cases hw : isWithin d root path <;> simp_all
  simp [verdict, hpassed, pure, Except.pure] at h

/-- A file that was found. -/
structure Listed (d : Disk) (root path : Path) : Prop where
  below : path ∈ d.below root
  ruby : hasRubyName path = true
  plain : isPlainFile d path = true
  within : isWithin d root path = true

theorem listed_of_find {found : Found} {path : Path} (h : find d root s = .ok found) (hp : path ∈ found.files) :
    Listed d root path := by
  obtain ⟨m, -, hsub, hv⟩ := find_eq_ok h
  obtain ⟨h1, h2⟩ := mem_candidates.1 (hsub.subset hp)
  obtain ⟨h3, h4⟩ := verdict_chosen (hv path hp)
  exact ⟨h1, h2, h3, h4⟩

theorem Listed.notLink {path : Path} (h : Listed d root path) : d.isLink path = false := by
  have := h.plain
  simp only [isPlainFile, Bool.and_eq_true, Bool.not_eq_true'] at this
  exact this.2

theorem Listed.locate {path : Path} (h : Listed d root path) :
    ∃ place content, d.locate path = .ok (place, .file content) := by
  have := h.plain
  simp only [isPlainFile, Bool.and_eq_true] at this
  exact Disk.locate_of_isFile this.1

/-- Names without slashes are found again in the text that joins them by slashes. -/
theorem splitOn_relativeText {names : List String} (hne : names ≠ []) (h : ∀ n ∈ names, Path.isName n = true) :
    (Path.relativeText names).toList.splitOn '/' = names.map String.toList := by
  have htext : Path.relativeText names = "/".intercalate names := by
    cases names with
    | nil => exact absurd rfl hne
    | cons n ns => rfl
  rw [htext, String.toList_intercalate]
  refine List.splitOn_intercalate '/' (fun l hl => ?_) (by simpa using hne)
  obtain ⟨n, hn, rfl⟩ := List.mem_map.1 hl
  have := h n hn
  simp only [Path.isName, Bool.and_eq_true, Bool.not_eq_true', List.contains_eq_mem, decide_eq_false_iff_not] at this
  exact this.2

/-- Under one directory the relative path tells the paths apart. -/
theorem relative_injective {p q : Path} (hp : p ∈ d.below root) (hq : q ∈ d.below root)
    (h : relative root p = relative root q) : p = q := by
  obtain ⟨a, _, _, ha, rfl, hra⟩ := Disk.mem_below_iff.1 hp
  obtain ⟨b, _, _, hb, rfl, hrb⟩ := Disk.mem_below_iff.1 hq
  simp only [relative, List.drop_left] at h
  have hmap : a.map String.toList = b.map String.toList := by
    rw [← splitOn_relativeText ha hra.proper, h, splitOn_relativeText hb hrb.proper]
  rw [List.map_injective_iff.2 (fun _ _ => String.toList_inj.1) hmap]

section

variable {d' : Disk} (hs : d'.shape = d.shape)

include hs

theorem isPlainFile_of_shape (path : Path) : isPlainFile d' path = isPlainFile d path := by
  rw [isPlainFile, Disk.isFile_of_shape hs, Disk.isLink_of_shape hs, isPlainFile]

theorem verdict_of_shape (m : Option Ignore.Matcher) (path : Path) : verdict d' root m s path = verdict d root m s path := by
  have hwithin : isWithin d' root path = isWithin d root path := by
    rw [isWithin, Disk.resolve_of_shape hs, Disk.resolve_of_shape hs, isWithin]
  rw [verdict, isPlainFile_of_shape hs, hwithin, verdict]

/-- Where the ignore files read the same, they decide the same. -/
theorem matcher_of_shape (nested : Bool) (hroot : d.isLink (root ++ [ignoreName]) = false)
    (hread : ∀ path, d.isLink (path ++ [ignoreName]) = false →
      d'.read (path ++ [ignoreName]) = d.read (path ++ [ignoreName])) :
    matcher d' root nested = matcher d root nested := by
  have hignore : ∀ path, d'.read path = d.read path → readIgnore d' path = readIgnore d path := by
    intro path h
    rw [readIgnore, h, readIgnore]
  have hfiles : ignoreFiles d' root = ignoreFiles d root := by
    simp only [ignoreFiles, Disk.below_of_shape hs, isPlainFile_of_shape hs]
  have hall : (ignoreFiles d root).mapM (readIgnore d') = (ignoreFiles d root).mapM (readIgnore d) := by
    refine mapM_congr fun path hp => ?_
    rw [ignoreFiles, List.mem_mergeSort, List.mem_eraseDups, List.mem_filter, Bool.and_eq_true, beq_iff_eq] at hp
    obtain ⟨-, hlast, hplain⟩ := hp
    obtain ⟨front, rfl⟩ := List.getLast?_eq_some_iff.1 hlast
    simp only [isPlainFile, Bool.and_eq_true, Bool.not_eq_true'] at hplain
    exact hignore _ (hread front hplain.2)
  unfold matcher
  simp only [hfiles, Disk.isFile_of_shape hs, hignore _ (hread root hroot)]
  cases hi : ignoreFiles d root with
  | nil => rfl
  | cons path paths =>
    rw [hi] at hall
    simp only [hall]

theorem find_of_shape (hm : matcher d' root s.nested = matcher d root s.nested) : find d' root s = find d root s := by
  have hcandidates : candidates d' root = candidates d root := by
    rw [candidates, Disk.below_of_shape hs, candidates]
  unfold find
  simp only [hm, hcandidates, verdict_of_shape hs]

end

end Scan

end TimeLint
