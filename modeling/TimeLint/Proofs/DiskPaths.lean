import TimeLint.Proofs.DiskShape
import TimeLint.Scan

/-! Where paths lead. A path is followed in two parts, a file that is no link stands at a place of its own
name, and two different paths listed under a directory lead to two different places. What is listed under a directory
is what names lead to from there, through directories alone. -/

namespace TimeLint.Disk

variable {d : Disk}

/-- To follow a path is to follow its front and then, from the directory found there, the rest. -/
theorem follow_append (links : Nat) (base : Path) (xs : List String) {ys : List String} (hys : ys ≠ []) :
    (∃ f, (∀ place, d.follow true links base xs ≠ .ok (place, .directory)) ∧
        ∀ last, d.follow last links base (xs ++ ys) = .error f) ∨
      ∃ place left, left ≤ links ∧ (∃ e, d.follow true links base xs = .ok (place, e)) ∧
        ∀ last, d.follow last links base (xs ++ ys) = d.follow last left place ys := by
  have hrest : ∀ zs : List String, (zs ++ ys).isEmpty = false := by
    intro zs
    cases zs <;> cases ys <;> simp_all
  fun_induction follow d true links base xs with
  | case1 links base => exact Or.inr ⟨base, links, Nat.le_refl _, ⟨_, rfl⟩, fun _ => rfl⟩
  | case2 links base n rest hn ih =>
    rcases ih with ⟨f, h1, h2⟩ | ⟨place, left, hle, h1, h2⟩
    · refine Or.inl ⟨f, h1, fun last => ?_⟩
      rw [List.cons_append, follow, if_pos hn]
      exact h2 last
    · refine Or.inr ⟨place, left, hle, h1, fun last => ?_⟩
      rw [List.cons_append, follow, if_pos hn]
      exact h2 last
  | case3 links base n rest hn he =>
    refine Or.inl ⟨.missing, by simp, fun last => ?_⟩
    rw [List.cons_append, follow, if_neg hn, he]
  | case4 links base n rest hn he ih =>
    rcases ih with ⟨f, h1, h2⟩ | ⟨place, left, hle, h1, h2⟩
    · refine Or.inl ⟨f, h1, fun last => ?_⟩
      rw [List.cons_append, follow, if_neg hn, he]
      exact h2 last
    · refine Or.inr ⟨place, left, hle, h1, fun last => ?_⟩
      rw [List.cons_append, follow, if_neg hn, he]
      exact h2 last
  | case5 links base n rest hn content he hr =>
    refine Or.inl ⟨.notDirectory, by simp, fun last => ?_⟩
    rw [List.cons_append, follow, if_neg hn, he]
    simp [hrest]
  | case6 links base n rest hn content he hr =>
    refine Or.inl ⟨.notDirectory, by simp, fun last => ?_⟩
    rw [List.cons_append, follow, if_neg hn, he]
    simp [hrest]
  | case7 links base n rest hn target he hr => simp at hr
  | case8 base n rest hn target he hr =>
    refine Or.inl ⟨.tooManyLinks, by simp, fun last => ?_⟩
    rw [List.cons_append, follow, if_neg hn, he]
    simp [hrest]
  | case9 base n rest hn target he hr left ih =>
    simp only [dite_eq_ite] at ih ⊢
    have hstep : ∀ last, d.follow last (left + 1) base (n :: rest ++ ys) =
        d.follow last left (if Path.isAbsolute target then [] else base) (Path.names target ++ rest ++ ys) := by
      intro last
      rw [List.cons_append, follow, if_neg hn, he]
      simp [hrest]
    rcases ih with ⟨f, h1, h2⟩ | ⟨place, left', hle, h1, h2⟩
    · exact Or.inl ⟨f, h1, fun last => (hstep last).trans (h2 last)⟩
    · exact Or.inr ⟨place, left', Nat.le_succ_of_le hle, h1, fun last => (hstep last).trans (h2 last)⟩

/-- One name further, where no link stands. -/
theorem follow_name {links : Nat} {base place : Path} {n : String} {content : Bytes} (hn : n ≠ "..")
    (hlink : ∀ q target, d.follow false links base [n] ≠ .ok (q, .link target))
    (h : d.follow true links base [n] = .ok (place, .file content)) : place = base ++ [n] := by
  have hne : ¬ (n == "..") = true := by simpa using hn
  rw [follow, if_neg hne] at h
  cases he : d.entry? (base ++ [n]) with
  | none => simp [he] at h
  | some e =>
    cases e with
    | file c =>
      rw [he] at h
      have hok : (base ++ [n], Entry.file c) = (place, .file content) := by simpa using h
      exact (congrArg Prod.fst hok).symm
    | directory =>
      rw [he] at h
      simp [follow, he] at h
    | link target =>
      refine absurd ?_ (hlink (base ++ [n]) target)
      rw [follow, if_neg hne, he]
      simp

/-- A file that is no link stands at a place that ends in its own name. -/
theorem getLast?_of_locate {path place : Path} {n : String} {content : Bytes} (hn : n ≠ "..")
    (hlink : d.isLink (path ++ [n]) = false) (h : d.locate (path ++ [n]) = .ok (place, .file content)) :
    place.getLast? = some n := by
  rcases follow_append (d := d) linkLimit [] path (List.cons_ne_nil n []) with ⟨f, -, h2⟩ | ⟨base, left, -, -, h2⟩
  · rw [locate, h2] at h
    cases h
  · rw [locate, h2] at h
    have hplace := follow_name hn (fun q target hq => ?_) h
    · rw [hplace]
      simp
    · rw [isLink, peek, h2, hq] at hlink
      cases hlink

/-- Through directories alone a path leads straight on. -/
theorem follow_directories {last : Bool} {links : Nat} {base : Path} {names : List String} {n : String}
    (hn : ∀ m ∈ names, m ≠ "..")
    (hd : ∀ k, k < names.length → d.entry? (base ++ names.take (k + 1)) = some .directory) :
    d.follow last links base (names ++ [n]) = d.follow last links (base ++ names) [n] := by
  induction names generalizing base with
  | nil => simp
  | cons m names ih =>
    have hm : ¬ (m == "..") = true := by simpa using hn m (by simp)
    have he : d.entry? (base ++ [m]) = some .directory := by simpa using hd 0 (by simp)
    rw [List.cons_append, follow, if_neg hm, he]
    simp only
    rw [ih (fun x hx => hn x (by simp [hx])), List.append_assoc, List.singleton_append]
    intro k hk
    have := hd (k + 1) (by simpa using hk)
    simpa using this

theorem isName_ne_up {n : String} (h : Path.isName n = true) : n ≠ ".." := by
  rintro rfl
  exact absurd h (by decide)

/-- The last name of a path leads to what stands there; a link is left alone, or it is none. -/
theorem follow_last {last : Bool} {links : Nat} {base : Path} {n : String} {e : Entry} (hn : n ≠ "..")
    (he : d.entry? (base ++ [n]) = some e) (hlink : last = true → ∀ target, e ≠ .link target) :
    d.follow last links base [n] = .ok (base ++ [n], e) := by
  have hne : ¬ (n == "..") = true := by simpa using hn
  rw [follow, if_neg hne, he]
  cases e with
  | file content => rfl
  | directory =>
    rw [follow, he]
    rfl
  | link target =>
    cases last with
    | false => rfl
    | true => exact absurd rfl (hlink rfl target)

section

variable {root base : Path} {names : List String} {e : Entry}

/-- From the directory at `base`, which `root` leads to, the names lead through directories alone to the entry. -/
structure Reached (d : Disk) (root : Path) (names : List String) (base : Path) (e : Entry) : Prop where
  start : d.locate root = .ok (base, .directory)
  proper : ∀ n ∈ names, Path.isName n = true
  directories : ∀ k < names.length, d.entry? (base ++ names.take k) = some .directory
  entry : d.entry? (base ++ names) = some e

theorem reaches_iff {place : Path} : d.reaches base place = true ↔
    ∃ names, place = base ++ names ∧ names ≠ [] ∧ (∀ n ∈ names, Path.isName n = true) ∧
      ∀ k < names.length, d.entry? (base ++ names.take k) = some .directory := by
  simp only [reaches, Bool.and_eq_true, decide_eq_true_eq, List.all_eq_true, beq_iff_eq, List.isPrefixOf_iff_prefix,
    List.mem_range'_1]
  refine ⟨?_, ?_⟩
  · rintro ⟨⟨⟨⟨names, rfl⟩, hlen⟩, hnames⟩, hdirs⟩
    rw [List.drop_left] at hnames
    refine ⟨names, rfl, ?_, hnames, fun k hk => ?_⟩
    · intro hnil
      simp [hnil] at hlen
    · have := hdirs (base.length + k) (by simp only [List.length_append]; omega)
      rwa [List.take_length_add_append] at this
  · rintro ⟨names, rfl, hne, hnames, hdirs⟩
    have hpos := List.length_pos_iff.2 hne
    refine ⟨⟨⟨List.prefix_append _ _, by simpa using hpos⟩, by rwa [List.drop_left]⟩, fun k hk => ?_⟩
    simp only [List.length_append] at hk
    have := hdirs (k - base.length) (by omega)
    rwa [← List.take_length_add_append, show base.length + (k - base.length) = k by omega] at this

theorem mem_below_iff {path : Path} : path ∈ d.below root ↔
    ∃ names base e, names ≠ [] ∧ path = root ++ names ∧ d.Reached root names base e := by
  refine ⟨fun h => ?_, ?_⟩
  · unfold below at h
    split at h
    · rename_i base hroot
      obtain ⟨place, hp, rfl⟩ := List.mem_map.1 h
      obtain ⟨hplace, hreach⟩ := List.mem_filter.1 hp
      obtain ⟨names, rfl, hne, hnames, hdirs⟩ := reaches_iff.1 hreach
      obtain ⟨e, he⟩ := (mem_places (by simp [hne])).1 hplace
      exact ⟨names, base, e, hne, by rw [List.drop_left], hroot, hnames, hdirs, he⟩
    · simp at h
  · rintro ⟨names, base, e, hne, rfl, hr⟩
    unfold below
    rw [hr.start]
    refine List.mem_map.2 ⟨base ++ names, List.mem_filter.2 ⟨?_, ?_⟩, by rw [List.drop_left]⟩
    · exact (mem_places (by simp [hne])).2 ⟨e, hr.entry⟩
    · exact reaches_iff.2 ⟨names, rfl, hne, hr.proper, hr.directories⟩

namespace Reached

theorem follow (h : d.Reached root names base e) (hne : names ≠ []) {last : Bool}
    (hlink : last = true → ∀ target, e ≠ .link target) :
    d.follow last linkLimit [] (root ++ names) = .ok (base ++ names, e) := by
  rcases follow_append (d := d) linkLimit [] root hne with ⟨f, hno, -⟩ | ⟨base', left, -, ⟨e', hb⟩, hgo⟩
  · exact absurd h.start (hno base)
  · obtain ⟨rfl, -⟩ : base = base' ∧ Entry.directory = e' := by simpa using h.start.symm.trans hb
    obtain ⟨front, n, rfl⟩ : ∃ front n, names = front ++ [n] :=
      ⟨names.dropLast, names.getLast hne, (List.dropLast_append_getLast hne).symm⟩
    have hdirs : ∀ k, k < front.length → d.entry? (base ++ front.take (k + 1)) = some .directory := by
      intro k hk
      have := h.directories (k + 1) (by simp only [List.length_append, List.length_singleton]; omega)
      rwa [List.take_append_of_le_length (by omega)] at this
    have hentry : d.entry? (base ++ front ++ [n]) = some e := by
      rw [List.append_assoc]
      exact h.entry
    rw [hgo last, follow_directories (fun m hm => isName_ne_up (h.proper m (by simp [hm]))) hdirs, ← List.append_assoc]
    exact follow_last (isName_ne_up (h.proper n (by simp))) hentry hlink

theorem locate (h : d.Reached root names base e) (hne : names ≠ []) (hlink : ∀ target, e ≠ .link target) :
    d.locate (root ++ names) = .ok (base ++ names, e) := h.follow hne fun _ => hlink

end Reached

end

/-- A listed file that is no link stands below the directory's place, just as its path says. -/
theorem place_of_listed {root path place : Path} {content : Bytes} (h : path ∈ d.below root)
    (hlink : d.isLink path = false) (hp : d.locate path = .ok (place, .file content)) :
    ∃ base rel, d.locate root = .ok (base, .directory) ∧ path = root ++ rel ∧ rel ≠ [] ∧ place = base ++ rel := by
  obtain ⟨rel, base, e, hne, rfl, hr⟩ := mem_below_iff.1 h
  have hpeek : d.peek (root ++ rel) = .ok (base ++ rel, e) := hr.follow hne (by simp)
  have hnolink : ∀ target, e ≠ .link target := by
    intro target he
    rw [isLink, hpeek, he] at hlink
    cases hlink
  have hplace : (base ++ rel, e) = (place, .file content) := Except.ok.inj ((hr.locate hne hnolink).symm.trans hp)
  exact ⟨base, rel, hr.start, rfl, hne, (congrArg Prod.fst hplace).symm⟩

/-- Different paths under a directory lead to different files. -/
theorem listed_injective {root p q place : Path} {b c : Bytes} (hp : p ∈ d.below root) (hq : q ∈ d.below root)
    (hpl : d.isLink p = false) (hql : d.isLink q = false) (h1 : d.locate p = .ok (place, .file b))
    (h2 : d.locate q = .ok (place, .file c)) : p = q := by
  obtain ⟨base, rel, hb, rfl, -, hr⟩ := place_of_listed hp hpl h1
  obtain ⟨base', rel', hb', rfl, -, hr'⟩ := place_of_listed hq hql h2
  rw [hb] at hb'
  obtain rfl : base = base' := by simpa using hb'
  rw [hr] at hr'
  rw [List.append_cancel_left hr']

theorem getLast?_of_listed {root path place : Path} {content : Bytes} (h : path ∈ d.below root)
    (hlink : d.isLink path = false) (hp : d.locate path = .ok (place, .file content)) :
    place.getLast? = path.getLast? := by
  obtain ⟨base, rel, -, rfl, hne, rfl⟩ := place_of_listed h hlink hp
  rw [List.getLast?_append_of_ne_nil _ hne, List.getLast?_append_of_ne_nil _ hne]

theorem locate_of_isFile {p : Path} (h : d.isFile p = true) : ∃ place content, d.locate p = .ok (place, .file content) := by
  unfold isFile at h
  split at h
  · rename_i place content hl
    exact ⟨place, content, hl⟩
  · cases h

theorem read_eq_ok {p : Path} {content : Bytes} (h : d.read p = .ok content) :
    ∃ place, d.locate p = .ok (place, .file content) := by
  unfold read at h
  split at h
  · rename_i place c hl
    obtain rfl : c = content := by simpa using h
    exact ⟨place, hl⟩
  · cases h
  · cases h

theorem read_of_locate {p place : Path} {content : Bytes} (h : d.locate p = .ok (place, .file content)) :
    d.read p = .ok content := by
  rw [read, h]

/-- On a disk of the same shape a path to a file leads to the same place. -/
theorem locate_of_shape {d' : Disk} {p place : Path} {content content' : Bytes} (hs : d'.shape = d.shape)
    (h : d.locate p = .ok (place, .file content)) (he : d'.entry? place = some (.file content')) :
    d'.locate p = .ok (place, .file content') := by
  have hmap : (d'.locate p).map (fun x => (x.1, x.2.emptied)) = .ok (place, .file []) := by
    rw [← locate_shape, hs, locate_shape, h]
    rfl
  cases hl : d'.locate p with
  | error f => simp [hl, Except.map] at hmap
  | ok x =>
    obtain ⟨q, e⟩ := x
    rw [hl] at hmap
    obtain ⟨rfl, hemp⟩ : q = place ∧ e.emptied = .file [] := by simpa [Except.map] using hmap
    cases e with
    | file c =>
      have := entry?_of_follow hl
      rw [he] at this
      obtain rfl : content' = c := by simpa using this
      rfl
    | directory => cases hemp
    | link target => cases hemp

end TimeLint.Disk
