import Mathlib.Data.List.Perm.Subperm
import Mathlib.Data.Nat.Find
import TimeLint.Proofs.DiskPaths

/-! The real place of a path that leads somewhere. To follow a path is to go on through links up to a limit; the real
place is found by following each link for itself, with the links that are being followed kept in mind. Where the
first comes to an end, the second comes to the same place: a link that is met again while it is followed needs more
links than itself. -/

namespace TimeLint

theorem Path.tidy_append (p : Path) {names : List String} (h : ∀ n ∈ names, n ≠ "..") :
    Path.tidy (p ++ names) = Path.tidy p ++ names := by
  induction names generalizing p with
  | nil => simp
  | cons n names ih =>
    have hstep : Path.tidy (p ++ [n]) = Path.tidy p ++ [n] := by
      simp [Path.tidy, h n (by simp)]
    rw [List.append_cons, ih (p ++ [n]) fun m hm => h m (by simp [hm]), hstep, ← List.append_cons]

theorem Path.tidy_of_proper {p : Path} (h : ∀ n ∈ p, n ≠ "..") : Path.tidy p = p :=
  Path.tidy_append [] h

namespace Disk

variable {d : Disk}

/-- The place is reached through directories alone. -/
structure Stands (d : Disk) (place : Path) (e : Entry) : Prop where
  proper : ∀ n ∈ place, n ≠ ".."
  directories : ∀ k < place.length, d.entry? (place.take k) = some .directory
  entry : d.entry? place = some e

theorem Stands.top : Stands d [] .directory := ⟨by simp, by simp, rfl⟩

theorem Stands.snoc {base : Path} {n : String} {e : Entry} (h : Stands d base .directory) (hn : n ≠ "..")
    (he : d.entry? (base ++ [n]) = some e) : Stands d (base ++ [n]) e := by
  refine ⟨fun m hm => ?_, fun k hk => ?_, he⟩
  · rcases List.mem_append.1 hm with hm | hm
    · exact h.proper m hm
    · rw [List.mem_singleton.1 hm]
      exact hn
  · simp only [List.length_append, List.length_singleton] at hk
    rw [List.take_append_of_le_length (by omega)]
    rcases Nat.lt_or_eq_of_le (Nat.le_of_lt_succ hk) with hlt | rfl
    · exact h.directories k hlt
    · rw [List.take_length]
      exact h.entry

theorem Stands.dropLast {base : Path} (h : Stands d base .directory) : Stands d base.dropLast .directory := by
  refine ⟨fun n hn => h.proper n (List.dropLast_subset base hn), fun k hk => ?_, ?_⟩
  · rw [List.length_dropLast] at hk
    rw [List.dropLast_eq_take, List.take_take, Nat.min_eq_left (by omega)]
    exact h.directories k (by omega)
  · cases base with
    | nil => rfl
    | cons n names =>
      rw [List.dropLast_eq_take]
      exact h.directories _ (by simp)

/-- From a place reached through directories a path leads to such a place, where no link stands. -/
theorem stands_of_follow {links : Nat} {base place : Path} {names : List String} {e : Entry}
    (hb : Stands d base .directory) (h : d.follow true links base names = .ok (place, e)) :
    Stands d place e ∧ ∀ target, e ≠ .link target := by
  fun_induction follow d true links base names with
  | case1 links base =>
    rw [hb.entry] at h
    obtain ⟨rfl, rfl⟩ : base = place ∧ Entry.directory = e := by simpa using h
    exact ⟨hb, by simp⟩
  | case2 links base n rest hn ih => exact ih hb.dropLast h
  | case3 => cases h
  | case4 links base n rest hn he ih => exact ih (hb.snoc (by simpa using hn) he) h
  | case5 links base n rest hn content he hr =>
    obtain ⟨rfl, rfl⟩ : base ++ [n] = place ∧ Entry.file content = e := by simpa using h
    exact ⟨hb.snoc (by simpa using hn) he, by simp⟩
  | case6 => cases h
  | case7 links base n rest hn target he hr => simp at hr
  | case8 => cases h
  | case9 base n rest hn target he hr left ih =>
    simp only [dite_eq_ite] at ih
    refine ih ?_ h
    split
    · exact .top
    · exact hb

/-- A path through directories leads to what stands at its end. -/
theorem Stands.locate {place : Path} {e : Entry} (h : Stands d place e) (hlink : ∀ target, e ≠ .link target) :
    d.locate place = .ok (place, e) := by
  rcases List.eq_nil_or_concat place with rfl | ⟨names, n, rfl⟩
  · obtain rfl : Entry.directory = e := by simpa [ entry?] using h.entry
    rw [Disk.locate, follow]
    rfl
  · rw [List.concat_eq_append] at h ⊢
    have hdirs : ∀ k, k < names.length → d.entry? ([] ++ names.take (k + 1)) = some .directory := by
      intro k hk
      have := h.directories (k + 1) (by simp only [List.length_append, List.length_singleton]; omega)
      rwa [List.take_append_of_le_length (by omega)] at this
    rw [Disk.locate, follow_directories (fun m hm => h.proper m (by simp [hm])) hdirs, List.nil_append]
    exact follow_last (h.proper n (by simp)) h.entry fun _ => hlink

theorem follow_link {base : Path} {n target : String} (hn : n ≠ "..") (he : d.entry? (base ++ [n]) = some (.link target))
    (left : Nat) (rest : List String) : d.follow true (left + 1) base (n :: rest) =
      d.follow true left (if Path.isAbsolute target then [] else base) (Path.names target ++ rest) := by
  have hne : ¬ (n == "..") = true := by simpa using hn
  rw [follow, if_neg hne, he]
  simp

theorem follow_link_zero {base : Path} {n target : String} (hn : n ≠ "..")
    (he : d.entry? (base ++ [n]) = some (.link target)) (rest : List String) :
    d.follow true 0 base (n :: rest) = .error .tooManyLinks := by
  have hne : ¬ (n == "..") = true := by simpa using hn
  rw [follow, if_neg hne, he]
  simp

theorem realFrom_link {depth : Nat} {active : List Path} {base middle : Path} {n target : String} (hn : n ≠ "..")
    (he : d.entry? (base ++ [n]) = some (.link target)) (hnew : base ++ [n] ∉ active)
    (hfirst : d.realFrom depth ((base ++ [n]) :: active) (if Path.isAbsolute target then [] else base)
      (Path.names target) = (middle, true)) (rest : List String) :
    d.realFrom (depth + 1) active base (n :: rest) = d.realFrom (depth + 1) active middle rest := by
  have hne : ¬ (n == "..") = true := by simpa using hn
  rw [realFrom, if_neg hne, he]
  simp [hnew, hfirst]

/-- More links do not change where a path leads. -/
theorem follow_mono {last : Bool} {links more : Nat} {base : Path} {names : List String} {r : Path × Entry}
    (h : d.follow last links base names = .ok r) (hle : links ≤ more) : d.follow last more base names = .ok r := by
  fun_induction follow d last links base names generalizing more with
  | case1 links base => rw [follow, h]
  | case2 links base n rest hn ih =>
    rw [follow, if_pos hn]
    exact ih h hle
  | case3 => cases h
  | case4 links base n rest hn he ih =>
    rw [follow, if_neg hn, he]
    exact ih h hle
  | case5 links base n rest hn content he hr =>
    rw [follow, if_neg hn, he]
    simpa [hr] using h
  | case6 => cases h
  | case7 links base n rest hn target he hr =>
    rw [follow, if_neg hn, he]
    simpa [hr] using h
  | case8 => cases h
  | case9 base n rest hn target he hr left ih =>
    simp only [dite_eq_ite] at ih
    obtain ⟨more, rfl⟩ : ∃ m, more = m + 1 := ⟨more - 1, by omega⟩
    rw [follow, if_neg hn, he]
    simpa [hr] using ih h (by omega)

/-- A path that is followed to its end needs a least number of links. -/
theorem follow_least {links : Nat} {base : Path} {names : List String} {r : Path × Entry}
    (h : d.follow true links base names = .ok r) :
    ∃ least ≤ links, d.follow true least base names = .ok r ∧ ∀ j < least, ∀ r', d.follow true j base names ≠ .ok r' := by
  classical
  have hsome : ∃ j, ∃ r', d.follow true j base names = .ok r' := ⟨links, r, h⟩
  have hle : Nat.find hsome ≤ links := Nat.find_min' hsome ⟨r, h⟩
  obtain ⟨r', hr'⟩ := Nat.find_spec hsome
  obtain rfl := Except.ok.inj ((follow_mono hr' hle).symm.trans h)
  exact ⟨Nat.find hsome, hle, hr', fun j hj r hr => Nat.find_min hsome hj ⟨r, hr⟩⟩

/-- A path that is followed to its end is followed in two parts. -/
theorem follow_parts {links : Nat} {base place : Path} {xs ys : List String} {e : Entry}
    (h : d.follow true links base (xs ++ ys) = .ok (place, e)) :
    ∃ middle e₁ left e₂, left ≤ links ∧ d.follow true links base xs = .ok (middle, e₁) ∧
      d.follow true left middle ys = .ok (place, e₂) := by
  by_cases hys : ys = []
  · subst hys
    rw [List.append_nil] at h
    exact ⟨place, e, links, _, Nat.le_refl _, h, by rw [follow]⟩
  · rcases follow_append (d := d) links base xs hys with ⟨f, -, hno⟩ | ⟨middle, left, hle, ⟨e₁, hfirst⟩, hgo⟩
    · rw [hno] at h
      cases h
    · exact ⟨middle, e₁, left, e, hle, hfirst, (hgo true).symm.trans h⟩

/-- Links that are being followed: none of them can be followed to its end with so few links. -/
structure Pending (d : Disk) (links : Nat) (active : List Path) : Prop where
  nodup : active.Nodup
  areLinks : ∀ link ∈ active, ∃ target, d.entry? link = some (.link target)
  unresolved : ∀ base n, base ++ [n] ∈ active → ∀ j ≤ links, ∀ r, d.follow true j base [n] ≠ .ok r

theorem Pending.nil (links : Nat) : Pending d links [] := ⟨List.nodup_nil, by simp, by simp⟩

theorem Pending.fewer {links fewer : Nat} {active : List Path} (h : Pending d links active) (hle : fewer ≤ links) :
    Pending d fewer active :=
  ⟨h.nodup, h.areLinks, fun base n hmem j hj => h.unresolved base n hmem j (Nat.le_trans hj hle)⟩

theorem Pending.length_le {links : Nat} {active : List Path} (h : Pending d links active) :
    active.length ≤ d.entries.length := by
  have hsub : active ⊆ d.places := by
    intro link hmem
    obtain ⟨target, he⟩ := h.areLinks link hmem
    refine (mem_places ?_).2 ⟨_, he⟩
    rintro rfl
    simp [ entry?] at he
  simpa [places] using (h.nodup.subperm hsub).length_le

/-- Before a link is followed with as few links as it needs, it is not among those that are being followed; it is
from then on. -/
theorem Pending.cons {links least : Nat} {active : List Path} {base : Path} {n target : String}
    (h : Pending d links active) (hle : least ≤ links) (hn : n ≠ "..")
    (he : d.entry? (base ++ [n]) = some (.link target)) (hnew : base ++ [n] ∉ active)
    (hleast : ∀ j < least, ∀ r, d.follow true j (if Path.isAbsolute target then [] else base) (Path.names target) ≠ .ok r) :
    Pending d least ((base ++ [n]) :: active) := by
  refine ⟨List.nodup_cons.2 ⟨hnew, h.nodup⟩, ?_, ?_⟩
  · intro link hmem
    rcases List.mem_cons.1 hmem with rfl | hmem
    · exact ⟨target, he⟩
    · exact h.areLinks link hmem
  · intro base' n' hmem j hj r hr
    rcases List.mem_cons.1 hmem with heq | hmem
    · obtain ⟨rfl, hn'⟩ := List.append_inj' heq rfl
      obtain rfl : n' = n := by simpa using hn'
      cases j with
      | zero =>
        rw [follow_link_zero hn he] at hr
        cases hr
      | succ j =>
        rw [follow_link hn he, List.append_nil] at hr
        exact hleast j (by omega) r hr
    · exact h.unresolved base' n' hmem j (Nat.le_trans hj hle) r hr

/-- Where a path is followed to its end, following each link for itself leads to the same place. -/
theorem realFrom_of_follow {links depth : Nat} {active : List Path} {base place : Path} {names : List String} {e : Entry}
    (h : d.follow true links base names = .ok (place, e)) (hp : Pending d links active)
    (hdepth : depth + active.length = d.entries.length + 1) : d.realFrom depth active base names = (place, true) := by
  -- the outer induction is on the links that are left, since the target of a link is followed with fewer; the inner
  -- one on the names, along which the number of links stays
  induction links using Nat.strong_induction_on generalizing depth active base place names e with
  | _ links ihLinks =>
    induction names generalizing base with
    | nil =>
      rw [follow] at h
      rw [realFrom]
      simp only [Except.ok.injEq, Prod.mk.injEq] at h
      rw [h.1]
    | cons n rest ih =>
      by_cases hn : n = ".."
      · subst hn
        rw [follow, if_pos (by rfl)] at h
        rw [realFrom, if_pos (by rfl)]
        exact ih h
      · have hne : ¬ (n == "..") = true := by simpa using hn
        cases he : d.entry? (base ++ [n]) with
        | none =>
          rw [follow, if_neg hne, he] at h
          cases h
        | some entry =>
          cases entry with
          | directory =>
            rw [follow, if_neg hne, he] at h
            rw [realFrom, if_neg hne, he]
            exact ih h
          | file content =>
            rw [follow, if_neg hne, he] at h
            rw [realFrom, if_neg hne, he]
            cases rest with
            | nil =>
              obtain ⟨rfl, -⟩ : base ++ [n] = place ∧ Entry.file content = e := by simpa using h
              rw [realFrom]
            | cons m rest => simp at h
          | link target =>
            cases links with
            | zero =>
              rw [follow_link_zero hn he] at h
              cases h
            | succ left =>
              rw [follow_link hn he] at h
              obtain ⟨middle, e₁, left', e₂, hle, hfirst, hrest⟩ := follow_parts h
              have hnew : base ++ [n] ∉ active := by
                intro hmem
                refine hp.unresolved base n hmem (left + 1) (Nat.le_refl _) (middle, e₁) ?_
                rw [follow_link hn he, List.append_nil]
                exact hfirst
              obtain ⟨least, hle', hleast, hfewer⟩ := follow_least hfirst
              have hpending : Pending d least ((base ++ [n]) :: active) := hp.cons (by omega) hn he hnew hfewer
              have hroom := hpending.length_le
              obtain ⟨depth, rfl⟩ : ∃ k, depth = k + 1 := ⟨depth - 1, by simp at hroom; omega⟩
              have hdeeper : depth + ((base ++ [n]) :: active).length = d.entries.length + 1 := by
                simp only [List.length_cons]
                omega
              have htarget := ihLinks _ (by omega) hleast hpending hdeeper
              rw [realFrom_link hn he hnew htarget]
              exact ihLinks left' (by omega) hrest (hp.fewer (by omega)) hdepth

/-- A path that leads somewhere has its real place there. -/
theorem resolve_of_locate {p place : Path} {e : Entry} (h : d.locate p = .ok (place, e)) : d.resolve p = some place := by
  have hdepth : d.entries.length + 1 + ([] : List Path).length = d.entries.length + 1 := rfl
  have hreal := realFrom_of_follow h (.nil linkLimit) hdepth
  obtain ⟨hstands, hlink⟩ := stands_of_follow .top h
  simp only [resolve, hreal, Path.tidy_of_proper hstands.proper, hstands.locate hlink]

end Disk

end TimeLint
