/-!
Where a bracketed set of characters ends. The first closing bracket ends it, except one that stands at
the very front or right after a leading exclamation mark.
-/

namespace TimeLint.Pattern

/-- The characters at the front of a set that cannot close it, and the rest. -/
def bracketFront : List Char → List Char × List Char
  | '!' :: ']' :: rest => (['!', ']'], rest)
  | '!' :: rest => (['!'], rest)
  | ']' :: rest => ([']'], rest)
  | rest => ([], rest)

/-- What stands between an opening bracket and its closing one, and what follows. -/
def bracket? (cs : List Char) : Option (List Char × List Char) :=
  let inner := (bracketFront cs).2
  match inner.dropWhile (· != ']') with
  | [] => none
  | _ :: rest => some ((bracketFront cs).1 ++ inner.takeWhile (· != ']'), rest)

theorem length_bracketFront (cs : List Char) : (bracketFront cs).2.length ≤ cs.length := by
  unfold bracketFront
  split <;> simp <;> omega

theorem length_dropWhile_le (p : Char → Bool) (cs : List Char) : (cs.dropWhile p).length ≤ cs.length := by
  induction cs with
  | nil => simp
  | cons c cs ih => rw [List.dropWhile_cons]; split <;> simp <;> omega

theorem length_bracket? {cs body rest : List Char} (h : bracket? cs = some (body, rest)) :
    rest.length < cs.length := by
  have front := length_bracketFront cs
  have inner := length_dropWhile_le (· != ']') (bracketFront cs).2
  simp only [bracket?] at h
  split at h
  · simp at h
  next heq =>
    simp only [Option.some.injEq, Prod.mk.injEq] at h
    rw [heq, h.2] at inner
    simp only [List.length_cons] at inner
    omega

end TimeLint.Pattern
