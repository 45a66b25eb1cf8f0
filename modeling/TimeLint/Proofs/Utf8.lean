import Mathlib.Data.List.Basic
import TimeLint.Text.Bytes

/-! Reading UTF-8. At the head of a text a character is read exactly if the text begins with the bytes of that
character. So a text is read whole exactly if it is the bytes of a string; and a reading that drops what belongs
to no character gives an ASCII string exactly if the ASCII bytes of the text spell the string and the text holds no
other character. -/

namespace TimeLint.Bytes

open String (utf8EncodeChar)

variable {bs rest : Bytes} {c : Char} {m : Nat}

theorem ofString_eq (s : String) : ofString s = s.toList.flatMap utf8EncodeChar := by
  rw [ofString, String.toUTF8_eq_toByteArray, ← String.utf8Encode_toList, List.utf8Encode, List.toList_data_toByteArray]

theorem ofString_append (s t : String) : ofString (s ++ t) = ofString s ++ ofString t := by
  rw [ofString_eq, String.toList_append, List.flatMap_append, ← ofString_eq, ← ofString_eq]

theorem ofString_join (ss : List String) : ofString (String.join ss) = ss.flatMap ofString := by
  induction ss with
  | nil => rfl
  | cons s ss ih => rw [String.join_cons, ofString_append, ih, List.flatMap_cons]

theorem toNat_byte {n : Nat} (h : n < 256) : (UInt8.ofNat n).toNat = n := by
  rw [UInt8.toNat_ofNat', Nat.mod_eq_of_lt h]

theorem ofNat_eq_byte {n : Nat} {b : UInt8} (h : n = b.toNat) : UInt8.ofNat n = b := by
  rw [h, UInt8.ofNat_toNat]

theorem ofNat_eq_char_iff {n : Nat} : (n.isValidChar ∧ Char.ofNat n = c) ↔ c.toNat = n := by
  constructor
  · rintro ⟨h, rfl⟩
    rw [Char.ofNat, dif_pos h]
    rfl
  · rintro rfl
    exact ⟨c.valid, Char.ofNat_toNat c⟩

theorem toNat_char_lt (c : Char) : c.toNat < 0x110000 := by
  rcases c.valid with h | h
  · exact Nat.lt_trans h (by decide)
  · exact h.2

/-- The bits of a lead byte and the bytes of `tail` make up the code of a character that has no shorter form. -/
structure Carries (lead least : Nat) (tail : Bytes) (c : Char) : Prop where
  continued : ∀ b ∈ tail, 0x80 ≤ b.toNat ∧ b.toNat < 0xC0
  shortest : least ≤ c.toNat
  code : c.toNat = payload lead tail

theorem scalar?_eq_some_iff {lead least : Nat} {tail : Bytes} :
    scalar? lead least tail = some c ↔ Carries lead least tail c := by
  have hscalar : scalar? lead least tail = some c ↔ (∀ b ∈ tail, 0x80 ≤ b.toNat ∧ b.toNat < 0xC0) ∧
      least ≤ payload lead tail ∧ (payload lead tail).isValidChar ∧ Char.ofNat (payload lead tail) = c := by
    simp only [scalar?, Option.ite_none_right_eq_some, Bool.and_eq_true, List.all_eq_true, decide_eq_true_eq,
      isContinuation, UInt8.le_iff_toNat_le, UInt8.lt_iff_toNat_lt, Option.some.injEq, and_assoc]
    rfl
  rw [hscalar, ofNat_eq_char_iff]
  constructor
  · rintro ⟨h1, h2, h3⟩
    exact ⟨h1, h3 ▸ h2, h3⟩
  · rintro ⟨h1, h2, h3⟩
    exact ⟨h1, h3 ▸ h2, h3⟩

/-- A character of `width + 1` bytes stands behind its lead byte. -/
theorem long_eq_some_iff {width lead least : Nat} :
    (if rest.length < width then none else (scalar? lead least (rest.take width)).map fun c => (c, width)) = some (c, m) ↔
      m = width ∧ ∃ tail more, rest = tail ++ more ∧ tail.length = width ∧ Carries lead least tail c := by
  constructor
  · intro h
    split at h
    · cases h
    · obtain ⟨d, hd, heq⟩ := Option.map_eq_some_iff.1 h
      obtain ⟨rfl, rfl⟩ : d = c ∧ width = m := by simpa using heq
      refine ⟨rfl, rest.take width, rest.drop width, (List.take_append_drop _ _).symm, ?_, scalar?_eq_some_iff.1 hd⟩
      rw [List.length_take]
      omega
  · rintro ⟨rfl, tail, more, rfl, hlen, hs⟩
    rw [if_neg (by simp only [List.length_append]; omega), List.take_left' hlen, scalar?_eq_some_iff.2 hs]
    rfl

/-- What a text begins with if a character is read at its head: one case per length of the character. -/
theorem headChar?_cons_eq_some_iff {a : UInt8} : headChar? (a :: rest) = some (c, m) ↔
    (a.toNat < 0x80 ∧ c.toNat = a.toNat ∧ m = 0) ∨
    (0xC0 ≤ a.toNat ∧ a.toNat < 0xE0 ∧ m = 1 ∧
      ∃ tail more, rest = tail ++ more ∧ tail.length = 1 ∧ Carries (a.toNat % 32) 0x80 tail c) ∨
    (0xE0 ≤ a.toNat ∧ a.toNat < 0xF0 ∧ m = 2 ∧
      ∃ tail more, rest = tail ++ more ∧ tail.length = 2 ∧ Carries (a.toNat % 16) 0x800 tail c) ∨
    (0xF0 ≤ a.toNat ∧ a.toNat < 0xF8 ∧ m = 3 ∧
      ∃ tail more, rest = tail ++ more ∧ tail.length = 3 ∧ Carries (a.toNat % 8) 0x10000 tail c) := by
  have hlt : ∀ n : Nat, n < 256 → (a < UInt8.ofNat n ↔ a.toNat < n) := fun n hn => by
    rw [UInt8.lt_iff_toNat_lt, toNat_byte hn]
  have h80 : a < 0x80 ↔ a.toNat < 0x80 := hlt 0x80 (by decide)
  have hC0 : a < 0xC0 ↔ a.toNat < 0xC0 := hlt 0xC0 (by decide)
  have hE0 : a < 0xE0 ↔ a.toNat < 0xE0 := hlt 0xE0 (by decide)
  have hF0 : a < 0xF0 ↔ a.toNat < 0xF0 := hlt 0xF0 (by decide)
  have hF8 : a < 0xF8 ↔ a.toNat < 0xF8 := hlt 0xF8 (by decide)
  simp only [headChar?, h80, hC0, hE0, hF0, hF8]
  split
  · rename_i ha
    have hvalid : a.toNat.isValidChar := Or.inl (by omega)
    have hc : Char.ofNat a.toNat = c ↔ c.toNat = a.toNat := by
      rw [← ofNat_eq_char_iff]
      simp [hvalid]
    simp only [Option.some.injEq, Prod.mk.injEq, hc, ha, true_and, eq_comm (b := m)]
    omega
  · split
    · simp only [reduceCtorEq, false_iff]
      omega
    · split
      · rw [long_eq_some_iff]
        grind
      · split
        · rw [long_eq_some_iff]
          grind
        · split
          · rw [long_eq_some_iff]
            grind
          · simp only [reduceCtorEq, false_iff]
            omega

/-- A text that begins with the bytes of a character is read as this character. -/
theorem headChar?_utf8EncodeChar (c : Char) (rest : Bytes) :
    headChar? (utf8EncodeChar c ++ rest) = some (c, (utf8EncodeChar c).length - 1) := by
  have hmax := toNat_char_lt c
  have hcode : c.val.toNat = c.toNat := rfl
  -- one case per length of the character; in each the bytes give back the quotients that they were made of
  rw [utf8EncodeChar]
  simp only [hcode]
  split
  · rw [List.cons_append, headChar?_cons_eq_some_iff, toNat_byte (by omega)]
    exact Or.inl ⟨by omega, rfl, rfl⟩
  · split
    · rw [List.cons_append, headChar?_cons_eq_some_iff, toNat_byte (by omega)]
      refine Or.inr (Or.inl ⟨by omega, by omega, rfl, _, rest, rfl, rfl, ?_, by omega, ?_⟩)
      · simp
        omega
      · simp [payload]
        omega
    · split
      · rw [List.cons_append, headChar?_cons_eq_some_iff, toNat_byte (by omega)]
        refine Or.inr (Or.inr (Or.inl ⟨by omega, by omega, rfl, _, rest, rfl, rfl, ?_, by omega, ?_⟩))
        · simp
          omega
        · simp [payload]
          omega
      · rw [List.cons_append, headChar?_cons_eq_some_iff, toNat_byte (by omega)]
        refine Or.inr (Or.inr (Or.inr ⟨by omega, by omega, rfl, _, rest, rfl, rfl, ?_, by omega, ?_⟩))
        · simp
          omega
        · simp [payload]
          omega

/-- The bytes that are read as a character are those that it is written with. -/
theorem utf8EncodeChar_of_headChar? (h : headChar? bs = some (c, m)) :
    ∃ more, bs = utf8EncodeChar c ++ more ∧ (utf8EncodeChar c).length = m + 1 := by
  have hcode : c.val.toNat = c.toNat := rfl
  cases bs with
  | nil => cases h
  | cons a rest =>
    rcases headChar?_cons_eq_some_iff.1 h with ⟨ha, hc, rfl⟩ | ⟨h1, h2, rfl, tail, more, rfl, hlen, ht, hl, hc⟩ |
      ⟨h1, h2, rfl, tail, more, rfl, hlen, ht, hl, hc⟩ | ⟨h1, h2, rfl, tail, more, rfl, hlen, ht, hl, hc⟩
    · have hbytes : utf8EncodeChar c = [a] := by
        rw [utf8EncodeChar, hcode, if_pos (by omega), ofNat_eq_byte hc]
      exact ⟨rest, by rw [hbytes]; rfl, by rw [hbytes]; rfl⟩
    · obtain ⟨b₁, rfl⟩ := List.length_eq_one_iff.1 hlen
      simp [payload] at ht hc
      have hbytes : utf8EncodeChar c = [a, b₁] := by
        rw [utf8EncodeChar, hcode, if_neg (by omega), if_pos (by omega), ofNat_eq_byte (b := a) (by omega),
          ofNat_eq_byte (b := b₁) (by omega)]
      exact ⟨more, by rw [hbytes]; rfl, by rw [hbytes]; rfl⟩
    · obtain ⟨b₁, b₂, rfl⟩ := List.length_eq_two.1 hlen
      simp [payload] at ht hc
      have hbytes : utf8EncodeChar c = [a, b₁, b₂] := by
        rw [utf8EncodeChar, hcode, if_neg (by omega), if_neg (by omega), if_pos (by omega),
          ofNat_eq_byte (b := a) (by omega), ofNat_eq_byte (b := b₁) (by omega), ofNat_eq_byte (b := b₂) (by omega)]
      exact ⟨more, by rw [hbytes]; rfl, by rw [hbytes]; rfl⟩
    · obtain ⟨b₁, b₂, b₃, rfl⟩ := List.length_eq_three.1 hlen
      simp [payload] at ht hc
      have hmax := toNat_char_lt c
      have hbytes : utf8EncodeChar c = [a, b₁, b₂, b₃] := by
        rw [utf8EncodeChar, hcode, if_neg (by omega), if_neg (by omega), if_neg (by omega),
          ofNat_eq_byte (b := a) (by omega), ofNat_eq_byte (b := b₁) (by omega), ofNat_eq_byte (b := b₂) (by omega),
          ofNat_eq_byte (b := b₃) (by omega)]
      exact ⟨more, by rw [hbytes]; rfl, by rw [hbytes]; rfl⟩

theorem headChar?_eq_some_iff : headChar? bs = some (c, m) ↔
    ∃ more, bs = utf8EncodeChar c ++ more ∧ (utf8EncodeChar c).length = m + 1 := by
  constructor
  · exact utf8EncodeChar_of_headChar?
  · rintro ⟨more, rfl, hlen⟩
    rw [headChar?_utf8EncodeChar, hlen, Nat.add_sub_cancel]

/-- What is left behind a character that is read. -/
theorem drop_of_headChar? {b : UInt8} (h : headChar? (b :: rest) = some (c, m)) :
    b :: rest = utf8EncodeChar c ++ rest.drop m := by
  obtain ⟨more, heq, hlen⟩ := headChar?_eq_some_iff.1 h
  have hmore : more = (b :: rest).drop (m + 1) := by rw [heq, ← hlen, List.drop_left]
  rw [heq, hmore, List.drop_succ_cons]

theorem decodeChars_utf8EncodeChar (c : Char) (rest : Bytes) :
    decodeChars (utf8EncodeChar c ++ rest) = (decodeChars rest).map (c :: ·) := by
  obtain ⟨b, tail, hbytes⟩ := List.exists_cons_of_ne_nil (String.utf8EncodeChar_ne_nil (c := c))
  have hhead := headChar?_utf8EncodeChar c rest
  rw [hbytes, List.cons_append] at hhead ⊢
  rw [decodeChars, hhead]
  simp

theorem decodeCharsLossy_utf8EncodeChar (c : Char) (rest : Bytes) :
    decodeCharsLossy (utf8EncodeChar c ++ rest) = c :: decodeCharsLossy rest := by
  obtain ⟨b, tail, hbytes⟩ := List.exists_cons_of_ne_nil (String.utf8EncodeChar_ne_nil (c := c))
  have hhead := headChar?_utf8EncodeChar c rest
  rw [hbytes, List.cons_append] at hhead ⊢
  rw [decodeCharsLossy, hhead]
  simp

/-- A text is read whole exactly if it is the bytes of what is read. -/
theorem decodeChars_eq_some_iff {cs : List Char} : decodeChars bs = some cs ↔ bs = cs.flatMap utf8EncodeChar := by
  constructor
  · intro h
    induction bs using decodeChars.induct generalizing cs with
    | case1 =>
      obtain rfl : [] = cs := by simpa [decodeChars] using h
      rfl
    | case2 b rest hnone => simp [decodeChars, hnone] at h
    | case3 b rest c more hsome ih =>
      rw [decodeChars, hsome] at h
      obtain ⟨ds, hds, rfl⟩ := Option.map_eq_some_iff.1 h
      rw [drop_of_headChar? hsome, ih hds, List.flatMap_cons]
  · rintro rfl
    induction cs with
    | nil => simp [decodeChars]
    | cons c cs ih => rw [List.flatMap_cons, decodeChars_utf8EncodeChar, ih, Option.map_some]

theorem decode_eq_some_iff {s : String} : decode bs = some s ↔ bs = ofString s := by
  rw [ofString_eq, ← decodeChars_eq_some_iff, decode, Option.map_eq_some_iff]
  constructor
  · rintro ⟨cs, hcs, rfl⟩
    rw [hcs, String.toList_ofList]
  · intro h
    exact ⟨s.toList, h, String.ofList_toList⟩

theorem ofString_inj {s t : String} : ofString s = ofString t ↔ s = t := by
  constructor
  · intro h
    have hs : decode (ofString t) = some s := decode_eq_some_iff.2 h.symm
    rw [decode_eq_some_iff.2 rfl] at hs
    exact (Option.some.inj hs).symm
  · exact congrArg ofString

/-- The bytes of a text are read as this text, whatever follows them. -/
theorem decodeLossy_ofString_append (s : String) (rest : Bytes) : decodeLossy (ofString s ++ rest) = s ++ decodeLossy rest := by
  have hchars : ∀ cs : List Char,
      decodeCharsLossy (cs.flatMap utf8EncodeChar ++ rest) = cs ++ decodeCharsLossy rest := by
    intro cs
    induction cs with
    | nil => rfl
    | cons c cs ih => rw [List.flatMap_cons, List.append_assoc, decodeCharsLossy_utf8EncodeChar, ih, List.cons_append]
  rw [decodeLossy, ofString_eq, hchars, String.ofList_append, String.ofList_toList, decodeLossy]

/-- Where nothing has to be dropped, nothing is. -/
theorem decodeLossy_ofString (s : String) : decodeLossy (ofString s) = s := by
  have hempty : decodeLossy [] = "" := by simp [decodeLossy, decodeCharsLossy]
  rw [← List.append_nil (ofString s), decodeLossy_ofString_append, hempty, String.append_empty]

/-- The bytes of an ASCII name stand in the text in order, and no byte between them is part of a character. -/
structure Spells (name : String) (bs : Bytes) : Prop where
  letters : bs.filter (· < 0x80) = ofString name
  noOther : ∀ c : Char, 0x80 ≤ c.toNat → ¬ utf8EncodeChar c <:+: bs

theorem utf8EncodeChar_ascii (h : c.toNat < 0x80) : utf8EncodeChar c = [UInt8.ofNat c.toNat] := by
  rw [utf8EncodeChar, if_pos (by exact Nat.le_of_lt_succ h)]
  rfl

/-- An ASCII byte is part of no character but its own. -/
theorem toNat_of_ascii_mem {b : UInt8} (hb : b ∈ utf8EncodeChar c) (hlow : b.toNat < 0x80) : c.toNat = b.toNat := by
  have hmax := toNat_char_lt c
  have hcode : c.val.toNat = c.toNat := rfl
  rw [utf8EncodeChar] at hb
  simp only [hcode] at hb
  split at hb
  · obtain rfl := List.mem_singleton.1 hb
    rw [toNat_byte (by omega)]
  · -- all bytes of a longer character have the high bit
    exfalso
    split at hb
    · simp only [List.mem_cons, List.not_mem_nil, or_false] at hb
      rcases hb with rfl | rfl <;> rw [toNat_byte (by omega)] at hlow <;> omega
    · split at hb
      · simp only [List.mem_cons, List.not_mem_nil, or_false] at hb
        rcases hb with rfl | rfl | rfl <;> rw [toNat_byte (by omega)] at hlow <;> omega
      · simp only [List.mem_cons, List.not_mem_nil, or_false] at hb
        rcases hb with rfl | rfl | rfl | rfl <;> rw [toNat_byte (by omega)] at hlow <;> omega

theorem newline_mem_ofString {s : String} : 10 ∈ ofString s ↔ '\n' ∈ s.toList := by
  rw [ofString_eq, List.mem_flatMap]
  constructor
  · rintro ⟨c, hc, h⟩
    have hcode : c.toNat = 10 := toNat_of_ascii_mem h (by decide)
    obtain rfl : c = '\n' := Char.toNat_inj.1 hcode
    exact hc
  · intro h
    exact ⟨'\n', h, by decide⟩

/-- An ASCII byte is read as a character, whatever follows it. -/
theorem headChar?_ascii {b : UInt8} (hb : b.toNat < 0x80) (rest : Bytes) :
    headChar? (b :: rest) = some (Char.ofNat b.toNat, 0) :=
  headChar?_cons_eq_some_iff.2 (Or.inl ⟨hb, ofNat_eq_char_iff.1 ⟨Or.inl (by omega), rfl⟩, rfl⟩)

/-- A character in a text stands at its head or behind the first byte. -/
theorem utf8EncodeChar_infix_cons {b : UInt8} : utf8EncodeChar c <:+: b :: rest ↔
    (∃ m, headChar? (b :: rest) = some (c, m)) ∨ utf8EncodeChar c <:+: rest := by
  rw [List.infix_cons_iff]
  refine or_congr_left ⟨?_, ?_⟩
  · rintro ⟨more, hmore⟩
    exact ⟨_, by rw [← hmore, headChar?_utf8EncodeChar]⟩
  · rintro ⟨m, hm⟩
    exact ⟨_, (drop_of_headChar? hm).symm⟩

/-- The ASCII bytes are those that stand for a character alone, so a text without other characters is read off them. -/
theorem decodeCharsLossy_eq_iff {cs : List Char} (hcs : ∀ c ∈ cs, c.toNat < 0x80) : decodeCharsLossy bs = cs ↔
    bs.filter (· < 0x80) = cs.flatMap utf8EncodeChar ∧ ∀ c : Char, 0x80 ≤ c.toNat → ¬ utf8EncodeChar c <:+: bs := by
  have hlt : ∀ b : UInt8, b < 0x80 ↔ b.toNat < 0x80 := fun b => UInt8.lt_iff_toNat_lt
  induction bs using decodeCharsLossy.induct generalizing cs with
  | case1 =>
    cases cs with
    | nil => simp [decodeCharsLossy]
    | cons c cs => simp [decodeCharsLossy]
  | case2 b rest hnone ih =>
    have hb : ¬ b < 0x80 := fun h => by simp [headChar?_ascii ((hlt b).1 h)] at hnone
    rw [decodeCharsLossy, hnone, List.filter_cons_of_neg (by simpa using hb)]
    simp only [utf8EncodeChar_infix_cons, hnone]
    simpa using ih hcs
  | case3 b rest c more hsome ih =>
    have hread : decodeCharsLossy (b :: rest) = c :: decodeCharsLossy (rest.drop more) := by
      rw [drop_of_headChar? hsome, decodeCharsLossy_utf8EncodeChar]
    rw [hread]
    by_cases hc : c.toNat < 0x80
    · -- the byte is the character, and no other one can begin with it
      obtain ⟨hb, hrest⟩ : b = UInt8.ofNat c.toNat ∧ rest = rest.drop more := by
        simpa [utf8EncodeChar_ascii hc] using drop_of_headChar? hsome
      have hlow : b < 0x80 := by rwa [hlt, hb, toNat_byte (by omega)]
      have hother : (∀ d : Char, 0x80 ≤ d.toNat → ¬ utf8EncodeChar d <:+: b :: rest) ↔
          ∀ d : Char, 0x80 ≤ d.toNat → ¬ utf8EncodeChar d <:+: rest := by
        refine forall₂_congr fun d hd => not_congr ?_
        rw [utf8EncodeChar_infix_cons, hsome, or_iff_right]
        rintro ⟨m, hm⟩
        obtain rfl : c = d := (Prod.mk.inj (Option.some.inj hm)).1
        omega
      rw [List.filter_cons_of_pos (by simpa using hlow), hother]
      rw [← hrest] at ih ⊢
      cases cs with
      | nil => simp
      | cons d ds =>
        have hd := hcs d (by simp)
        have hsame : c = d ↔ b = UInt8.ofNat d.toNat := by
          rw [← Char.toNat_inj, hb, ← UInt8.toNat_inj, toNat_byte (by omega), toNat_byte (by omega)]
        have htail := ih fun e he => hcs e (List.mem_cons_of_mem d he)
        rw [List.flatMap_cons, utf8EncodeChar_ascii hd, List.singleton_append, List.cons.injEq, List.cons.injEq, hsame,
          and_assoc]
        exact and_congr_right' htail
    · -- a longer character is neither in the name nor allowed in the text
      have hin : utf8EncodeChar c <:+: b :: rest := utf8EncodeChar_infix_cons.2 (Or.inl ⟨more, hsome⟩)
      constructor
      · rintro rfl
        exact absurd (hcs c (by simp)) hc
      · rintro ⟨-, hno⟩
        exact absurd hin (hno c (by omega))

/-- An ASCII name is read from a text exactly if the text spells it. -/
theorem decodeLossy_eq_iff {name : String} (hname : ∀ c ∈ name.toList, c.toNat < 0x80) :
    decodeLossy bs = name ↔ Spells name bs := by
  have hlist : decodeLossy bs = name ↔ decodeCharsLossy bs = name.toList := by
    rw [decodeLossy, ← String.toList_inj, String.toList_ofList]
  rw [hlist, decodeCharsLossy_eq_iff hname, ← ofString_eq]
  exact ⟨fun ⟨h1, h2⟩ => ⟨h1, h2⟩, fun ⟨h1, h2⟩ => ⟨h1, h2⟩⟩

/-- A text that spells a name is the name exactly if it is well-formed. -/
theorem Spells.eq_iff {name : String} (hname : ∀ c ∈ name.toList, c.toNat < 0x80) (h : Spells name bs) :
    bs = ofString name ↔ (decode bs).isSome = true := by
  rw [Option.isSome_iff_exists]
  constructor
  · intro hbs
    exact ⟨name, decode_eq_some_iff.2 hbs⟩
  · rintro ⟨s, hs⟩
    rw [decode_eq_some_iff] at hs
    have hread := (decodeLossy_eq_iff hname).2 h
    rw [hs, decodeLossy_ofString] at hread
    rw [hs, hread]

end TimeLint.Bytes
