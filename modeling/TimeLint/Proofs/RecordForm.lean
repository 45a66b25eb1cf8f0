import Mathlib
import TimeLint.Report.Record

/-! The written form of a record. Every part of it shows where it ends: an escaped character by how it begins, a
quoted text by its closing quote, a number by the comma or brace behind it. So the fields of a record can be told from
any text that begins with its form. No part holds a newline. -/

namespace TimeLint.Report

variable {c d : Char} {x y : List Char}

/-- The characters that are escaped with a letter. -/
def letters : List (Char × Char) :=
  [('"', '"'), ('\\', '\\'), ('\x08', 'b'), ('\t', 't'), ('\n', 'n'), ('\x0c', 'f'), ('\r', 'r')]

/-- How a character is written in a quoted text. -/
inductive Escaped : Char → List Char → Prop where
  | letter {c l : Char} (h : (c, l) ∈ letters) : Escaped c ['\\', l]
  | code {c : Char} (h : c.toNat < 32) : Escaped c ('\\' :: 'u' :: (Text.hex 4 c.toNat).toList)
  | plain {c : Char} (hquote : c ≠ '"') (hbackslash : c ≠ '\\') (h : 32 ≤ c.toNat) : Escaped c [c]

theorem escaped_escapeChar (c : Char) : Escaped c (escapeChar c) := by
  by_cases hletter : c ∈ letters.map (·.1)
  · obtain ⟨p, hp, rfl⟩ := List.mem_map.1 hletter
    have htable : ∀ p ∈ letters, escapeChar p.1 = ['\\', p.2] := by decide
    rw [htable p hp]
    exact .letter hp
  · -- no letter stands for the character, so only its code decides
    obtain ⟨hquote, hbackslash, hrest⟩ : c ≠ '"' ∧ c ≠ '\\' ∧
        (c ≠ '\x08' ∧ c ≠ '\t' ∧ c ≠ '\n' ∧ c ≠ '\x0c' ∧ c ≠ '\r') := by simpa [letters] using hletter
    have hescape : escapeChar c = if c.toNat < 32 then '\\' :: 'u' :: (Text.hex 4 c.toNat).toList else [c] := by
      simp [escapeChar, hquote, hbackslash, hrest]
    rw [hescape]
    split
    · exact .code ‹_›
    · exact .plain hquote hbackslash (by omega)

/-- The code of a control character takes four digits, the last two of which tell it. -/
theorem hex_control {n : Nat} (h : n < 32) :
    (Text.hex 4 n).toList = ['0', '0', Nat.digitChar (n / 16), Nat.digitChar (n % 16)] :=
  (by decide : ∀ n : Fin 32, (Text.hex 4 n).toList = ['0', '0', Nat.digitChar (n / 16), Nat.digitChar (n % 16)]) ⟨n, h⟩

theorem digitChar_inj {m n : Nat} (hm : m < 16) (hn : n < 16) (h : Nat.digitChar m = Nat.digitChar n) : m = n :=
  congrArg Fin.val ((by decide : ∀ m n : Fin 16, Nat.digitChar m = Nat.digitChar n → m = n) ⟨m, hm⟩ ⟨n, hn⟩ h)

theorem hex_control_split {m n : Nat} (hm : m < 32) (hn : n < 32)
    (h : (Text.hex 4 m).toList ++ x = (Text.hex 4 n).toList ++ y) : m = n ∧ x = y := by
  rw [hex_control hm, hex_control hn] at h
  obtain ⟨hhigh, hlow, hxy⟩ : Nat.digitChar (m / 16) = Nat.digitChar (n / 16) ∧
      Nat.digitChar (m % 16) = Nat.digitChar (n % 16) ∧ x = y := by simpa using h
  have h1 := digitChar_inj (by omega) (by omega) hhigh
  have h2 := digitChar_inj (by omega) (by omega) hlow
  exact ⟨by omega, hxy⟩

/-- An escaped character can be split off the front of a text. -/
theorem Escaped.split {cs ds : List Char} (hc : Escaped c cs) (hd : Escaped d ds) (h : cs ++ x = ds ++ y) :
    c = d ∧ x = y := by
  have hsame : ∀ p ∈ letters, ∀ q ∈ letters, p.2 = q.2 → p.1 = q.1 := by decide
  have hu : ∀ p ∈ letters, p.2 ≠ 'u' := by decide
  cases hc with
  | @letter l hl =>
    cases hd with
    | @letter m hm =>
      obtain ⟨rfl, rfl⟩ : l = m ∧ x = y := by simpa using h
      exact ⟨hsame _ hl _ hm rfl, rfl⟩
    | code hd =>
      obtain ⟨rfl, -⟩ : l = 'u' ∧ _ := by simpa using h
      exact absurd rfl (hu _ hl)
    | plain _ hbackslash _ =>
      obtain ⟨rfl, -⟩ : '\\' = d ∧ _ := by simpa using h
      exact absurd rfl hbackslash
  | code hc =>
    cases hd with
    | @letter m hm =>
      obtain ⟨rfl, -⟩ : 'u' = m ∧ _ := by simpa using h
      exact absurd rfl (hu _ hm)
    | code hd =>
      obtain ⟨hcode, hxy⟩ := hex_control_split hc hd (by simpa using h)
      exact ⟨Char.toNat_inj.1 hcode, hxy⟩
    | plain _ hbackslash _ =>
      obtain ⟨rfl, -⟩ : '\\' = d ∧ _ := by simpa using h
      exact absurd rfl hbackslash
  | plain _ hbackslash _ =>
    cases hd with
    | letter _ =>
      obtain ⟨rfl, -⟩ : c = '\\' ∧ _ := by simpa using h
      exact absurd rfl hbackslash
    | code _ =>
      obtain ⟨rfl, -⟩ : c = '\\' ∧ _ := by simpa using h
      exact absurd rfl hbackslash
    | plain _ _ _ => simpa using h

theorem Escaped.not_quote {cs : List Char} (hc : Escaped c cs) : ∃ a rest, cs = a :: rest ∧ a ≠ '"' := by
  cases hc with
  | letter _ => exact ⟨_, _, rfl, by decide⟩
  | code _ => exact ⟨_, _, rfl, by decide⟩
  | plain hquote _ _ => exact ⟨_, _, rfl, hquote⟩

theorem Escaped.no_newline {cs : List Char} (hc : Escaped c cs) : '\n' ∉ cs := by
  have hletters : ∀ p ∈ letters, p.2 ≠ '\n' := by decide
  cases hc with
  | letter h => simpa using (hletters _ h).symm
  | code h => simp [hex_control h]
  | plain _ _ h =>
    intro hmem
    obtain rfl := List.mem_singleton.1 hmem
    exact absurd h (by decide)

theorem escapes_split {cs ds : List Char} (h : cs.flatMap escapeChar ++ '"' :: x = ds.flatMap escapeChar ++ '"' :: y) :
    cs = ds ∧ x = y := by
  induction cs generalizing ds with
  | nil =>
    cases ds with
    | nil => simpa using h
    | cons d ds =>
      obtain ⟨a, rest, ha, hquote⟩ := (escaped_escapeChar d).not_quote
      obtain ⟨rfl, -⟩ : '"' = a ∧ _ := by simpa [ha] using h
      exact absurd rfl hquote
  | cons c cs ih =>
    cases ds with
    | nil =>
      obtain ⟨a, rest, ha, hquote⟩ := (escaped_escapeChar c).not_quote
      obtain ⟨rfl, -⟩ : a = '"' ∧ _ := by simpa [ha] using h
      exact absurd rfl hquote
    | cons d ds =>
      simp only [List.flatMap_cons, List.append_assoc] at h
      obtain ⟨rfl, hrest⟩ := (escaped_escapeChar c).split (escaped_escapeChar d) h
      obtain ⟨rfl, hxy⟩ := ih hrest
      exact ⟨rfl, hxy⟩

/-- A quoted text can be split off the front of a text, whatever follows. -/
theorem quote_split {s t : String} (h : quote s ++ x = quote t ++ y) : s = t ∧ x = y := by
  have hbody : s.toList.flatMap escapeChar ++ '"' :: x = t.toList.flatMap escapeChar ++ '"' :: y := by
    simpa [quote] using h
  obtain ⟨hst, hxy⟩ := escapes_split hbody
  exact ⟨String.toList_inj.1 hst, hxy⟩

theorem quote_no_newline (s : String) : '\n' ∉ quote s := by
  simp only [quote, List.cons_append, List.mem_cons, List.mem_append, List.mem_flatMap, List.not_mem_nil, or_false]
  rintro (h | ⟨c, -, hc⟩ | h)
  · exact absurd h (by decide)
  · exact (escaped_escapeChar c).no_newline hc
  · exact absurd h (by decide)

/-- The characters that numbers are written with. -/
def isNumeral (c : Char) : Bool := c == '-' || c.isDigit

theorem isNumeral_of_mem_number {n : Int} (h : c ∈ (toString n).toList) : isNumeral c = true := by
  have hdigits : ∀ m : Nat, c ∈ m.repr.toList → isNumeral c = true := by
    intro m hm
    rw [Nat.toList_repr] at hm
    simp [isNumeral, Nat.isDigit_of_mem_toDigits (by decide) (by decide) hm]
  rw [Int.toString_eq_repr, Int.repr_eq_if] at h
  split at h
  · exact hdigits _ h
  · rcases List.mem_append.1 (String.toList_append ▸ h) with hsign | hm
    · obtain rfl : c = '-' := by simpa using hsign
      rfl
    · exact hdigits _ hm

/-- What may follow the value of a field. -/
def Ends (x : List Char) : Prop := ∃ c rest, x = c :: rest ∧ (c = ',' ∨ c = '\x7d')

theorem Ends.not_numeral (h : Ends x) : x.takeWhile isNumeral = [] := by
  obtain ⟨c, rest, rfl, rfl | rfl⟩ := h
  · rfl
  · rfl

theorem takeWhile_number (n : Int) (hx : Ends x) :
    ((toString n).toList ++ x).takeWhile isNumeral = (toString n).toList := by
  rw [List.takeWhile_append_of_pos fun c hc => isNumeral_of_mem_number hc, hx.not_numeral, List.append_nil]

theorem number_split {m n : Int} (hx : Ends x) (hy : Ends y) (h : (toString m).toList ++ x = (toString n).toList ++ y) :
    m = n ∧ x = y := by
  have hdigits : (toString m).toList = (toString n).toList := by
    rw [← takeWhile_number m hx, h, takeWhile_number n hy]
  have hmn : m = n := by
    rw [String.toList_inj, Int.toString_eq_repr, Int.toString_eq_repr] at hdigits
    exact Int.repr_inj.1 hdigits
  subst hmn
  exact ⟨rfl, List.append_cancel_left h⟩

theorem number_ne_nil (n : Int) : (toString n).toList ≠ [] := by
  rw [Int.toString_eq_repr, Int.repr_eq_if]
  split
  · rw [Nat.toList_repr]
    exact Nat.toDigits_ne_nil
  · simp

theorem word_split {p q : Bool} (h : (Scalar.bool p).chars ++ x = (Scalar.bool q).chars ++ y) : p = q ∧ x = y := by
  have hhead : (if p then 't' else 'f') = if q then 't' else 'f' := by
    cases p <;> cases q <;> exact (List.cons.inj h).1
  obtain rfl : p = q := by
    revert hhead
    cases p <;> cases q <;> decide
  exact ⟨rfl, List.append_cancel_left h⟩

/-- What the written form of a value may begin with, by the kind of the value. -/
def Scalar.opens : Scalar → Char → Bool
  | bool _, c => c == 't' || c == 'f'
  | int _, c => isNumeral c
  | text _, c => c == '"'

theorem Scalar.exists_head (a : Scalar) : ∃ c rest, a.chars = c :: rest ∧ a.opens c = true := by
  cases a with
  | bool p =>
    cases p with
    | true => exact ⟨'t', _, rfl, rfl⟩
    | false => exact ⟨'f', _, rfl, rfl⟩
  | int n =>
    obtain ⟨c, rest, h⟩ := List.exists_cons_of_ne_nil (number_ne_nil n)
    exact ⟨c, rest, h, isNumeral_of_mem_number (h ▸ List.mem_cons_self)⟩
  | text s => exact ⟨'"', _, rfl, rfl⟩

/-- A value can be told from what is written for it: its kind by the first character, and the rest as its kind says. -/
theorem scalar_split {a b : Scalar} (hx : Ends x) (hy : Ends y) (h : a.chars ++ x = b.chars ++ y) : a = b ∧ x = y := by
  obtain ⟨c, rest, ha, hopen⟩ := a.exists_head
  obtain ⟨d, rest', hb, hopen'⟩ := b.exists_head
  obtain rfl : c = d := by
    rw [ha, hb] at h
    exact (List.cons.inj h).1
  have hkinds : isNumeral 't' = false ∧ isNumeral 'f' = false ∧ isNumeral '"' = false := by decide
  cases a with
  | bool p =>
    cases b with
    | bool q =>
      obtain ⟨rfl, hxy⟩ := word_split h
      exact ⟨rfl, hxy⟩
    | int n => grind [Scalar.opens]
    | text t => grind [Scalar.opens]
  | int m =>
    cases b with
    | int n =>
      obtain ⟨rfl, hxy⟩ := number_split hx hy h
      exact ⟨rfl, hxy⟩
    | bool q => grind [Scalar.opens]
    | text t => grind [Scalar.opens]
  | text s =>
    cases b with
    | text t =>
      obtain ⟨rfl, hxy⟩ := quote_split h
      exact ⟨rfl, hxy⟩
    | bool q => grind [Scalar.opens]
    | int n => grind [Scalar.opens]

theorem scalar_no_newline (a : Scalar) : '\n' ∉ a.chars := by
  cases a with
  | bool p => cases p <;> decide
  | int n => exact fun h => absurd (isNumeral_of_mem_number h) (by decide)
  | text s => exact quote_no_newline s

namespace Record

variable {f g : String × Scalar} {fs gs : List (String × Scalar)}

theorem field_split (hx : Ends x) (hy : Ends y) (h : fieldChars f ++ x = fieldChars g ++ y) : f = g ∧ x = y := by
  simp only [fieldChars, List.append_assoc] at h
  obtain ⟨hname, hvalue⟩ := quote_split h
  obtain ⟨hscalar, hxy⟩ := scalar_split hx hy (List.cons.inj hvalue).2
  exact ⟨Prod.ext hname hscalar, hxy⟩

theorem field_no_newline (f : String × Scalar) : '\n' ∉ fieldChars f := by
  simp only [fieldChars, List.mem_append, List.mem_cons]
  rintro (h | h | h)
  · exact quote_no_newline f.1 h
  · exact absurd h (by decide)
  · exact scalar_no_newline f.2 h

/-- The fields behind the first, each with its comma. -/
def more (fs : List (String × Scalar)) : List Char := fs.flatMap fun f => ',' :: fieldChars f

theorem intercalate_fields (f : String × Scalar) (fs : List (String × Scalar)) :
    List.intercalate [','] ((f :: fs).map fieldChars) = fieldChars f ++ more fs := by
  induction fs generalizing f with
  | nil => simp [more]
  | cons g fs ih =>
    rw [List.map_cons, List.map_cons, List.intercalate_cons_cons, ← List.map_cons, ih g]
    simp [more]

theorem ends_more (fs : List (String × Scalar)) (x : List Char) : Ends (more fs ++ '\x7d' :: x) := by
  cases fs with
  | nil => exact ⟨_, _, rfl, Or.inr rfl⟩
  | cons f fs => exact ⟨_, _, rfl, Or.inl rfl⟩

theorem more_split (h : more fs ++ '\x7d' :: x = more gs ++ '\x7d' :: y) : fs = gs ∧ x = y := by
  induction fs generalizing gs with
  | nil =>
    cases gs with
    | nil => simpa [more] using h
    | cons g gs => simp [more] at h
  | cons f fs ih =>
    cases gs with
    | nil => simp [more] at h
    | cons g gs =>
      have hfields : fieldChars f ++ (more fs ++ '\x7d' :: x) = fieldChars g ++ (more gs ++ '\x7d' :: y) := by
        simpa [more] using h
      obtain ⟨rfl, hrest⟩ := field_split (ends_more fs x) (ends_more gs y) hfields
      obtain ⟨rfl, hxy⟩ := ih hrest
      exact ⟨rfl, hxy⟩

theorem more_no_newline (fs : List (String × Scalar)) : '\n' ∉ more fs := by
  simp only [more, List.mem_flatMap, List.mem_cons, not_exists, not_and, not_or]
  exact fun f _ => ⟨by decide, field_no_newline f⟩

theorem object_chars (r : Record) : ∃ f fs, r.fields = f :: fs ∧
    r.object.toList = '\x7b' :: (fieldChars f ++ (more fs ++ ['\x7d'])) := by
  refine ⟨_, _, rfl, ?_⟩
  rw [object, String.toList_ofList, fields, intercalate_fields, List.cons_append, List.append_assoc]

/-- The fields of a record can be told from any text that begins with its form. -/
theorem object_split {r s : Record} (h : r.object.toList ++ x = s.object.toList ++ y) : r.fields = s.fields ∧ x = y := by
  obtain ⟨f, fs, hr, hobject⟩ := r.object_chars
  obtain ⟨g, gs, hs, hobject'⟩ := s.object_chars
  have hfields : fieldChars f ++ (more fs ++ '\x7d' :: x) = fieldChars g ++ (more gs ++ '\x7d' :: y) := by
    simpa [hobject, hobject'] using h
  obtain ⟨rfl, hmore⟩ := field_split (ends_more fs x) (ends_more gs y) hfields
  obtain ⟨rfl, hxy⟩ := more_split hmore
  exact ⟨hr.trans hs.symm, hxy⟩

theorem object_no_newline (r : Record) : '\n' ∉ r.object.toList := by
  obtain ⟨f, fs, -, hobject⟩ := r.object_chars
  simp only [hobject, List.mem_cons, List.mem_append, List.not_mem_nil, or_false]
  rintro (h | h | h | h)
  · exact absurd h (by decide)
  · exact field_no_newline f h
  · exact more_no_newline fs h
  · exact absurd h (by decide)

end Record

end TimeLint.Report
