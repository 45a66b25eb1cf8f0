import TimeLint.Disk.Entry

/-!
The real place behind a path. All links are followed, and names that do not exist are kept. A path has
no real place if a link on it leads back to itself.
-/

namespace TimeLint.Disk

/-- The place behind `names` from `base`, and whether it was reached. `active` holds the links that are
being followed, `depth` bounds how many of them there can be. -/
def realFrom (d : Disk) (depth : Nat) (active : List Path) (base : Path) (names : List String) : Path × Bool :=
  match names with
  | [] => (base, true)
  | n :: rest =>
    if n == ".." then d.realFrom depth active base.dropLast rest
    else
      match d.entry? (base ++ [n]) with
      | some (.link target) =>
        if active.contains (base ++ [n]) then (base ++ n :: rest, false)
        else
          match depth with
          | 0 => (base ++ n :: rest, false)
          | left + 1 =>
            match d.realFrom left ((base ++ [n]) :: active)
              (if Path.isAbsolute target then [] else base) (Path.names target) with
            | (place, false) => (place ++ rest, false)
            | (place, true) => d.realFrom (left + 1) active place rest
      | _ => d.realFrom depth active (base ++ [n]) rest
termination_by (depth, names.length)
decreasing_by
  all_goals simp_wf
  all_goals first
    | exact Prod.Lex.right _ (by simp)
    | exact Prod.Lex.left _ _ (by omega)

def resolve (d : Disk) (p : Path) : Option Path :=
  let place := (d.realFrom (d.entries.length + 1) [] [] p).1.tidy
  match d.locate place with
  | .error .tooManyLinks => none
  | _ => some place

end TimeLint.Disk
