import TimeLint.Proofs.Discovery
import TimeLint.Proofs.RealPlaces

/-! What is reached from a directory, as a scan sees it: what is a plain file there, and that it lies within the
directory. What is listed and where paths lead depend on what stands at each place, not on the order in which a disk
lists its entries. -/

namespace TimeLint.Disk

variable {d : Disk} {root base : Path} {names : List String} {e : Entry}

namespace Reached

/-- What is reached stands in a directory that is reached. -/
theorem parent {n : String} (h : d.Reached root (names ++ [n]) base e) : d.Reached root names base .directory := by
  have hdirs : ∀ k ≤ names.length, d.entry? (base ++ names.take k) = some .directory := by
    intro k hk
    have hk' : k < (names ++ [n]).length := by
      rw [List.length_append, List.length_singleton]
      omega
    have := h.directories k hk'
    rwa [List.take_append_of_le_length hk] at this
  refine ⟨h.start, fun m hm => h.proper m (by simp [hm]), fun k hk => hdirs k (Nat.le_of_lt hk), ?_⟩
  simpa using hdirs names.length (Nat.le_refl _)

theorem isDirectory (h : d.Reached root names base .directory) : d.isDirectory (root ++ names) = true := by
  by_cases hne : names = []
  · rw [hne, List.append_nil, Disk.isDirectory, h.start]
  · rw [Disk.isDirectory, h.locate hne (by simp)]

/-- What is reached is a file and no link exactly if a file stands there. -/
theorem isPlainFile_iff (h : d.Reached root names base e) (hne : names ≠ []) :
    Scan.isPlainFile d (root ++ names) = true ↔ ∃ content, e = .file content := by
  have hpeek : d.peek (root ++ names) = .ok (base ++ names, e) := h.follow hne (by simp)
  cases e with
  | file content => simp [Scan.isPlainFile, isFile, isLink, hpeek, h.locate hne (by simp)]
  | directory => simp [Scan.isPlainFile, isFile, h.locate hne (by simp)]
  | link target => simp [Scan.isPlainFile, isLink, hpeek]

/-- A file reached from a directory lies in it, with all links followed. -/
theorem isWithin (h : d.Reached root names base e) (hne : names ≠ []) (hlink : ∀ target, e ≠ .link target) :
    Scan.isWithin d root (root ++ names) = true := by
  rw [Scan.isWithin, resolve_of_locate (h.locate hne hlink), resolve_of_locate h.start]
  simp

end Reached

/-- A file that is no link stands in the directory itself. -/
theorem reached_of_plain {n : String} (hn : Path.isName n = true) (h : Scan.isPlainFile d (root ++ [n]) = true) :
    ∃ base content, d.Reached root [n] base (.file content) := by
  obtain ⟨hfile, hlink⟩ : d.isFile (root ++ [n]) = true ∧ d.isLink (root ++ [n]) = false := by
    simpa [Scan.isPlainFile] using h
  obtain ⟨place, content, hplace⟩ := locate_of_isFile hfile
  rcases follow_append (d := d) linkLimit [] root (List.cons_ne_nil n []) with ⟨f, -, hgo⟩ | ⟨base, left, -, ⟨e, hroot⟩, hgo⟩
  · rw [locate, hgo] at hplace
    cases hplace
  · have hnext := hplace
    rw [locate, hgo] at hnext
    obtain rfl : place = base ++ [n] := by
      refine follow_name (isName_ne_up hn) (fun q target hq => ?_) hnext
      rw [isLink, peek, hgo, hq] at hlink
      cases hlink
    have hstands := (stands_of_follow .top hplace).1
    have hdirectory : d.entry? base = some .directory := by simpa using hstands.directories base.length (by simp)
    have hbase := (stands_of_follow .top hroot).1.entry
    obtain rfl : Entry.directory = e := by simpa using hdirectory.symm.trans hbase
    exact ⟨base, content, hroot, by simp [hn], by simpa using hdirectory, hstands.entry⟩

section

variable {d' : Disk} (hd : ∀ place, d'.entry? place = d.entry? place)

include hd

theorem follow_congr (last : Bool) (links : Nat) (base : Path) (names : List String) :
    d'.follow last links base names = d.follow last links base names := by
  fun_induction follow d last links base names with
  | case1 links base => rw [follow, hd]
  | case2 links base n rest hn ih =>
    rw [follow, if_pos hn]
    exact ih
  | case3 links base n rest hn he => rw [follow, if_neg hn, hd, he]
  | case4 links base n rest hn he ih =>
    rw [follow, if_neg hn, hd, he]
    exact ih
  | case5 links base n rest hn content he hr =>
    rw [follow, if_neg hn, hd, he]
    simp [hr]
  | case6 links base n rest hn content he hr =>
    rw [follow, if_neg hn, hd, he]
    simp [hr]
  | case7 links base n rest hn target he hr =>
    rw [follow, if_neg hn, hd, he]
    simp [hr]
  | case8 base n rest hn target he hr =>
    rw [follow, if_neg hn, hd, he]
    simp [hr]
  | case9 base n rest hn target he hr left ih =>
    simp only [dite_eq_ite] at ih
    rw [follow, if_neg hn, hd, he]
    simpa [hr] using ih

theorem locate_congr (p : Path) : d'.locate p = d.locate p := follow_congr hd _ _ _ _

theorem isFile_congr (p : Path) : d'.isFile p = d.isFile p := by
  rw [isFile, locate_congr hd, isFile]

theorem read_congr (p : Path) : d'.read p = d.read p := by
  rw [read, locate_congr hd, read]

theorem isLink_congr (p : Path) : d'.isLink p = d.isLink p := by
  rw [isLink, peek, follow_congr hd, isLink, peek]

theorem reached_congr : d'.Reached root names base e ↔ d.Reached root names base e := by
  refine ⟨fun h => ?_, fun h => ?_⟩
  · obtain ⟨hstart, hproper, hdirs, hentry⟩ := h
    simp only [locate_congr hd, hd] at hstart hdirs hentry
    exact ⟨hstart, hproper, hdirs, hentry⟩
  · obtain ⟨hstart, hproper, hdirs, hentry⟩ := h
    simp only [← locate_congr hd, ← hd] at hstart hdirs hentry
    exact ⟨hstart, hproper, hdirs, hentry⟩

theorem mem_below_congr {path : Path} : path ∈ d'.below root ↔ path ∈ d.below root := by
  simp only [mem_below_iff, reached_congr hd]

end

end TimeLint.Disk
