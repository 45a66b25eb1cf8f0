import TimeLint.Disk.Resolve
import Mathlib.Data.List.Basic

/-! The shape of a disk is the disk with all files emptied. Where a path leads, what is a link, and what
stands under a directory depend on the shape alone, and a write keeps the shape. -/

namespace TimeLint

def Entry.emptied : Entry → Entry
  | .file _ => .file []
  | e => e

namespace Disk

def places (d : Disk) : List Path := d.entries.map (·.1)

/-- Each place with what stands there, less the content of files. -/
def shape (d : Disk) : Disk := ⟨d.places.map fun p => (p, ((d.entry? p).getD .directory).emptied)⟩

theorem lookup_tabulate {β : Type} (f : Path → β) (q : Path) (l : List Path) :
    (l.map fun p => (p, f p)).lookup q = if q ∈ l then some (f q) else none := by
  induction l with
  | nil => rfl
  | cons p l ih =>
    rw [List.map_cons, List.lookup_cons]
    by_cases hq : q = p
    · simp [hq]
    · have hne : (q == p) = false := by simpa using hq
      simp only [hne, ih, List.mem_cons, hq, false_or]

theorem mem_places {d : Disk} {place : Path} (hne : place ≠ []) : place ∈ d.places ↔ ∃ e, d.entry? place = some e := by
  simp only [ entry?, List.isEmpty_iff, hne, if_false, places]
  induction d.entries with
  | nil => simp
  | cons x l ih =>
    obtain ⟨k, b⟩ := x
    rw [List.map_cons, List.mem_cons, List.lookup_cons]
    by_cases hk : place = k
    · simp [hk]
    · have hkne : (place == k) = false := by simpa using hk
      simp only [hk, false_or, hkne]
      exact ih

theorem entry?_shape (d : Disk) (place : Path) : d.shape.entry? place = (d.entry? place).map Entry.emptied := by
  by_cases hne : place = []
  · simp [ entry?, hne, Entry.emptied]
  · have hl : d.shape.entry? place =
        if place ∈ d.places then some ((d.entry? place).getD .directory).emptied else none := by
      simp only [shape, entry?, List.isEmpty_iff, hne, if_false]
      rw [lookup_tabulate]
      simp [hne]
    rw [hl]
    split
    · rename_i hm
      obtain ⟨e, he⟩ := (mem_places hne).1 hm
      simp [he]
    · rename_i hm
      cases he : d.entry? place with
      | none => rfl
      | some e => exact absurd ((mem_places hne).2 ⟨e, he⟩) hm

theorem places_shape (d : Disk) : d.shape.places = d.places := by
  simp [places, shape]

theorem follow_shape (d : Disk) (last : Bool) (links : Nat) (base : Path) (names : List String) :
    d.shape.follow last links base names =
      (d.follow last links base names).map fun x => (x.1, x.2.emptied) := by
  fun_induction follow d last links base names with
  | case1 links base =>
    rw [follow, entry?_shape]
    cases d.entry? base <;> rfl
  | case2 links base n rest hn ih =>
    rw [follow, if_pos hn]
    exact ih
  | case3 links base n rest hn he =>
    rw [follow, if_neg hn, entry?_shape, he]
    rfl
  | case4 links base n rest hn he ih =>
    rw [follow, if_neg hn, entry?_shape, he]
    exact ih
  | case5 links base n rest hn content he hr =>
    rw [follow, if_neg hn, entry?_shape, he]
    simp only [Option.map_some, Entry.emptied, hr, if_true]
    rfl
  | case6 links base n rest hn content he hr =>
    rw [follow, if_neg hn, entry?_shape, he]
    simp only [Option.map_some, Entry.emptied, hr]
    rfl
  | case7 links base n rest hn target he hr =>
    rw [follow, if_neg hn, entry?_shape, he]
    simp only [Option.map_some, Entry.emptied, hr, if_true]
    rfl
  | case8 base n rest hn target he hr =>
    rw [follow, if_neg hn, entry?_shape, he]
    simp only [Option.map_some, Entry.emptied, hr]
    rfl
  | case9 base n rest hn target he hr left ih =>
    rw [follow, if_neg hn, entry?_shape, he]
    simp only [Option.map_some, Entry.emptied, hr]
    exact ih

theorem realFrom_shape (d : Disk) (depth : Nat) (active : List Path) (base : Path) (names : List String) :
    d.shape.realFrom depth active base names = d.realFrom depth active base names := by
  fun_induction realFrom d depth active base names with
  | case1 depth active base => rw [realFrom]
  | case2 depth active base n rest hn ih =>
    rw [realFrom, if_pos hn]
    exact ih
  | case3 depth active base n rest hn target he ha =>
    rw [realFrom, if_neg hn, entry?_shape, he]
    simp only [Option.map_some, Entry.emptied, ha, if_true]
  | case4 active base n rest hn target he ha =>
    rw [realFrom, if_neg hn, entry?_shape, he]
    simp only [Option.map_some, Entry.emptied, ha, if_false, Bool.false_eq_true]
  | case5 active base n rest hn target he ha left place hp ih =>
    simp only [dite_eq_ite] at hp ih
    rw [realFrom, if_neg hn, entry?_shape, he]
    simp only [Option.map_some, Entry.emptied, ha, if_false, Bool.false_eq_true, ih, hp]
  | case6 active base n rest hn target he ha left place hp ih1 ih2 =>
    simp only [dite_eq_ite] at hp ih1
    rw [realFrom, if_neg hn, entry?_shape, he]
    simp only [Option.map_some, Entry.emptied, ha, if_false, Bool.false_eq_true, ih1, hp, ih2]
  | case7 depth active base n rest hn he ih =>
    rw [realFrom, if_neg hn, entry?_shape]
    cases h : d.entry? (base ++ [n]) with
    | none => exact ih
    | some e =>
      cases e with
      | link target => exact absurd h (he target)
      | file content => exact ih
      | directory => exact ih

theorem locate_shape (d : Disk) (p : Path) :
    d.shape.locate p = (d.locate p).map fun x => (x.1, x.2.emptied) := follow_shape d _ _ _ _

theorem isFile_shape (d : Disk) (p : Path) : d.shape.isFile p = d.isFile p := by
  unfold isFile
  rw [locate_shape]
  rcases d.locate p with f | ⟨place, e⟩
  · rfl
  · cases e <;> rfl

theorem isDirectory_shape (d : Disk) (p : Path) : d.shape.isDirectory p = d.isDirectory p := by
  unfold isDirectory
  rw [locate_shape]
  rcases d.locate p with f | ⟨place, e⟩
  · rfl
  · cases e <;> rfl

theorem isLink_shape (d : Disk) (p : Path) : d.shape.isLink p = d.isLink p := by
  unfold isLink peek
  rw [follow_shape]
  rcases d.follow false linkLimit [] p with f | ⟨place, e⟩
  · rfl
  · cases e <;> rfl

theorem resolve_shape (d : Disk) (p : Path) : d.shape.resolve p = d.resolve p := by
  have hlen : d.shape.entries.length = d.entries.length := by simp [shape, places]
  unfold resolve
  simp only [realFrom_shape, hlen, locate_shape]
  rcases d.locate _ with f | ⟨place, e⟩
  · cases f <;> rfl
  · rfl

theorem reaches_shape (d : Disk) (base place : Path) : d.shape.reaches base place = d.reaches base place := by
  unfold reaches
  congr 1
  refine congrArg (List.all _) (funext fun k => ?_)
  rw [ entry?_shape]
  cases d.entry? (place.take k) with
  | none => rfl
  | some e => cases e <;> rfl

theorem below_shape (d : Disk) (root : Path) : d.shape.below root = d.below root := by
  have hkeys : d.shape.entries.map (·.1) = d.entries.map (·.1) := places_shape d
  have hreaches : ∀ base, d.shape.reaches base = d.reaches base := fun base => funext (reaches_shape d base)
  unfold below
  rw [locate_shape, hkeys]
  rcases d.locate root with f | ⟨base, e⟩
  · rfl
  · cases e with
    | directory => simp only [Except.map, Entry.emptied, hreaches]
    | file content => rfl
    | link target => rfl

section

variable {d d' : Disk} (hs : d'.shape = d.shape)

include hs

theorem isFile_of_shape (p : Path) : d'.isFile p = d.isFile p := by
  rw [← isFile_shape, hs, isFile_shape]

theorem isDirectory_of_shape (p : Path) : d'.isDirectory p = d.isDirectory p := by
  rw [← isDirectory_shape, hs, isDirectory_shape]

theorem isLink_of_shape (p : Path) : d'.isLink p = d.isLink p := by
  rw [← isLink_shape, hs, isLink_shape]

theorem resolve_of_shape (p : Path) : d'.resolve p = d.resolve p := by
  rw [← resolve_shape, hs, resolve_shape]

theorem below_of_shape (root : Path) : d'.below root = d.below root := by
  rw [← below_shape, hs, below_shape]

end

/-- A file that a path leads to stands at its place. -/
theorem entry?_of_follow {d : Disk} {last : Bool} {links : Nat} {base place : Path} {names : List String}
    {content : Bytes} (h : d.follow last links base names = .ok (place, .file content)) :
    d.entry? place = some (.file content) := by
  fun_induction follow d last links base names with
  | case1 links base =>
    simp only [Except.ok.injEq, Prod.mk.injEq] at h
    obtain ⟨rfl, h⟩ := h
    cases he : d.entry? base with
    | none => simp [he] at h
    | some e => rw [he] at h; exact congrArg some h
  | case2 _ _ _ _ _ ih => exact ih h
  | case3 => cases h
  | case4 _ _ _ _ _ _ ih => exact ih h
  | case5 _ _ _ _ _ content he _ =>
    simp only [Except.ok.injEq, Prod.mk.injEq] at h
    obtain ⟨rfl, h⟩ := h
    rw [he, h]
  | case6 => cases h
  | case7 => simp at h
  | case8 => cases h
  | case9 _ _ _ _ _ _ _ _ ih => exact ih h

theorem lookup_replace (l : List (Path × Entry)) (place q : Path) (e : Entry) :
    (l.map fun x => if x.1 == place then (place, e) else x).lookup q =
      if q = place then (l.lookup q).map fun _ => e else l.lookup q := by
  induction l with
  | nil => simp
  | cons x l ih =>
    obtain ⟨k, b⟩ := x
    rw [List.map_cons]
    by_cases hk : k = place
    · subst hk
      by_cases hq : q = k
      · simp [hq]
      · have hne : (q == k) = false := by simpa using hq
        simp only [beq_self_eq_true, if_true, List.lookup_cons, hne, ih, hq]
    · have hkp : (k == place) = false := by simpa using hk
      simp only [hkp, Bool.false_eq_true, if_false, List.lookup_cons]
      by_cases hq : q = k
      · subst hq
        simp [hk]
      · have hne : (q == k) = false := by simpa using hq
        simp only [hne]
        exact ih

theorem any_place {d : Disk} {place : Path} {e : Entry} (h : d.entry? place = some e) (hne : place ≠ []) :
    d.entries.any (·.1 == place) = true := by
  obtain ⟨x, hx, hp⟩ := List.mem_map.1 ((mem_places hne).2 ⟨e, h⟩)
  exact List.any_eq_true.2 ⟨x, hx, by simp [hp]⟩

/-- Where an entry is replaced, every other place keeps its own. -/
theorem entry?_put {d : Disk} {place : Path} {e e' : Entry} (h : d.entry? place = some e') (hne : place ≠ []) (q : Path) :
    Disk.entry? (d.put place e) q = if q = place then some e else d.entry? q := by
  have hlookup : d.entries.lookup place = some e' := by simpa [ entry?, hne] using h
  unfold put
  rw [if_pos (any_place h hne)]
  unfold entry?
  by_cases hq : q = []
  · simp [hq, Ne.symm hne]
  · simp only [List.isEmpty_iff, hq, if_false, lookup_replace]
    by_cases hqp : q = place
    · simp [hqp, hlookup]
    · simp [hqp]

theorem places_put {d : Disk} {place : Path} {e e' : Entry} (h : d.entry? place = some e') (hne : place ≠ []) :
    (d.put place e).places = d.places := by
  unfold put places
  rw [if_pos (any_place h hne), List.map_map]
  refine List.map_congr_left fun x _ => ?_
  simp only [Function.comp]
  split
  · rename_i hx
    exact (by simpa using hx : x.1 = place).symm
  · rfl

theorem shape_put {d : Disk} {place : Path} {content content' : Bytes} (h : d.entry? place = some (.file content)) :
    (d.put place (.file content')).shape = d.shape := by
  have hne : place ≠ [] := by
    rintro rfl
    simp [ entry?] at h
  unfold shape
  rw [places_put h hne]
  congr 1
  refine List.map_congr_left fun p _ => ?_
  rw [ entry?_put h hne]
  split
  · rename_i hp
    subst hp
    simp [h, Entry.emptied]
  · rfl

/-- What a write does: at most the file that the path leads to gets the new content. -/
theorem entry?_write {d : Disk} {p place : Path} {content old : Bytes} (h : d.locate p = .ok (place, .file old)) (q : Path) :
    Disk.entry? (d.write p content) q = if q = place then some (.file content) else d.entry? q := by
  have he : d.entry? place = some (.file old) := entry?_of_follow h
  have hne : place ≠ [] := by
    rintro rfl
    simp [ entry?] at he
  unfold write
  rw [h]
  exact entry?_put he hne q

theorem shape_write (d : Disk) (p : Path) (content : Bytes) : (d.write p content).shape = d.shape := by
  unfold write
  split
  · rename_i place old h
    exact shape_put (entry?_of_follow h)
  · rfl

end Disk

end TimeLint
