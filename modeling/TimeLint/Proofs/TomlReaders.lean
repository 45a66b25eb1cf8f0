import Mathlib.Data.List.Infix
import TimeLint.Toml.Scalar

/-! Readers of scalars. What a reader leaves unread is the end of what it was given, so that each reader sees a part of
the text. A number is refused for its length only where the text holds one that long. -/

namespace TimeLint.Toml

/-- The text holds a number of `n` digits, more than are read, perhaps with underscores in it. -/
structure HoldsLong (n : Nat) (cs : List Char) : Prop where
  limit : digitLimit < n
  run : ∃ run, run <:+: cs ∧ (∀ c ∈ run, c.isDigit = true ∨ c = '_') ∧ run.countP Char.isDigit = n

theorem HoldsLong.widen {n : Nat} {cs cs' : List Char} (h : HoldsLong n cs') (hs : cs' <:+: cs) : HoldsLong n cs := by
  obtain ⟨run, hrun, hdigits⟩ := h.run
  exact ⟨h.limit, run, hrun.trans hs, hdigits⟩

/-- Reading leaves the end of the text, and refuses a number for its length only if there is one. -/
structure Reads {α : Type} (rest : α → List Char) (cs : List Char) (r : Except Fault α) : Prop where
  suffix : ∀ a, r = .ok a → rest a <:+ cs
  long : ∀ n unread, r = .error ⟨.tooLong n, unread⟩ → HoldsLong n cs

namespace Reads

variable {α β : Type} {rest : α → List Char} {rest' : β → List Char} {cs : List Char}

theorem ok {a : α} (h : rest a <:+ cs) : Reads rest cs (.ok a) where
  suffix := by
    intro b hb
    cases hb
    exact h
  long := by
    intro n unread h
    cases h

theorem fault {problem : Problem} {unread : List Char} (h : ∀ n, problem ≠ .tooLong n) :
    Reads rest cs (Toml.fault problem unread) where
  suffix := by
    intro a ha
    cases ha
  long := by
    intro n unread' hn
    cases hn
    exact absurd rfl (h n)

theorem of_suffix {r : Except Fault α} {cs' : List Char} (h : Reads rest cs' r) (hs : cs' <:+ cs) : Reads rest cs r where
  suffix := fun a ha => (h.suffix a ha).trans hs
  long := fun n unread hn => (h.long n unread hn).widen hs.isInfix

theorem bind {x : Except Fault α} {f : α → Except Fault β} (h : Reads rest cs x)
    (hf : ∀ a, rest a <:+ cs → Reads rest' (rest a) (f a)) : Reads rest' cs (x >>= f) := by
  cases x with
  | error e => exact ⟨fun a ha => (by cases ha), fun n unread hn => h.long n unread (by cases hn; rfl)⟩
  | ok a =>
    have hs := h.suffix a rfl
    exact (hf a hs).of_suffix hs

theorem map {x : Except Fault α} {f : α → β} (h : Reads rest cs x) (hf : ∀ a, rest' (f a) <:+ rest a) :
    Reads rest' cs (x.map f) := by
  cases x with
  | error e => exact ⟨fun a ha => (by cases ha), fun n unread hn => h.long n unread (by cases hn; rfl)⟩
  | ok a => exact .ok ((hf a).trans (h.suffix a rfl))

end Reads

theorem splitAt?_eq {delimiter cs before after : List Char} (h : splitAt? delimiter cs = some (before, after)) :
    cs = before ++ after := by
  induction cs generalizing before with
  | nil => cases h
  | cons c rest ih =>
    rw [splitAt?] at h
    split at h
    · cases h
      rfl
    · obtain ⟨⟨front, back⟩, hsplit, hpair⟩ := Option.map_eq_some_iff.1 h
      cases hpair
      rw [List.cons_append, ← ih hsplit]

theorem reads_refuse {illegal : Char → Bool} {body after : List Char} :
    Reads (fun _ => after) after (refuse illegal body after) := by
  unfold refuse
  split
  · exact .ok List.suffix_rfl
  · exact .fault (by simp)

theorem reads_skipComment (cs : List Char) : Reads id cs (skipComment cs) := by
  unfold skipComment
  split
  · rename_i rest
    have hafter : ((splitAt? ['\n'] rest).getD (rest, [])).2 <:+ '#' :: rest := by
      cases hs : splitAt? ['\n'] rest with
      | none => exact List.nil_suffix
      | some found =>
        obtain ⟨before, after⟩ := found
        rw [splitAt?_eq hs]
        exact (List.suffix_append _ _).trans (List.suffix_cons _ _)
    refine .of_suffix (.bind reads_refuse fun _ _ => ?_) hafter
    exact .ok List.suffix_rfl
  · exact .ok List.suffix_rfl

theorem reads_literalBody (delimiter : String) (illegal : Char → Bool) (cs : List Char) :
    Reads Prod.snd cs (literalBody delimiter illegal cs) := by
  unfold literalBody
  split
  · exact .fault (by simp)
  · rename_i body after hs
    rw [splitAt?_eq hs]
    refine .of_suffix (.bind reads_refuse fun _ _ => ?_) (List.suffix_append _ _)
    exact .ok (List.drop_suffix _ _)

theorem reads_hexChar (width : Nat) (cs : List Char) : Reads Prod.snd cs (hexChar width cs) := by
  unfold hexChar
  simp only
  split
  · exact .fault (by simp)
  · split
    · exact .ok (List.drop_suffix _ _)
    · exact .fault (by simp)

theorem reads_escape (multiline : Bool) (cs : List Char) : Reads Prod.snd cs (escape multiline cs) := by
  unfold escape
  split
  · exact .fault (by simp)
  · rename_i c rest
    refine .of_suffix ?_ (List.suffix_cons c rest)
    split
    · exact .ok (List.dropWhile_suffix _)
    · split
      · have hblank : rest.dropWhile isSpace <:+ rest := List.dropWhile_suffix _
        split
        · exact .ok List.nil_suffix
        · rename_i after hafter
          rw [hafter] at hblank
          exact .ok ((List.dropWhile_suffix _).trans ((List.suffix_cons _ _).trans hblank))
        · exact .fault (by simp)
      · split
        · exact (reads_hexChar 4 rest).map fun _ => List.suffix_rfl
        · split
          · exact (reads_hexChar 8 rest).map fun _ => List.suffix_rfl
          · split
            · exact .ok List.suffix_rfl
            · exact .fault (by simp)

theorem reads_basicBody (multiline : Bool) (fuel : Nat) (cs : List Char) :
    Reads Prod.snd cs (basicBody multiline fuel cs) := by
  induction fuel generalizing cs with
  | zero => exact .fault (by simp)
  | succ fuel ih =>
    unfold basicBody
    split
    · exact .fault (by simp)
    · rename_i rest
      refine .of_suffix ?_ (List.suffix_cons _ rest)
      split
      · exact .ok List.suffix_rfl
      · split
        · exact .ok (List.drop_suffix _ _)
        · exact (ih rest).map fun _ => List.suffix_rfl
    · rename_i rest
      refine .of_suffix (.bind (reads_escape multiline rest) fun a _ => ?_) (List.suffix_cons _ rest)
      exact .bind (ih a.2) fun _ _ => .ok List.suffix_rfl
    · rename_i c rest _ _
      cases (if multiline then isIllegalInLines c else isIllegal c) with
      | true => exact .fault (by simp)
      | false => exact .of_suffix ((ih rest).map fun _ => List.suffix_rfl) (List.suffix_cons c rest)

theorem reads_basicString (multiline : Bool) (cs : List Char) : Reads Prod.snd cs (basicString multiline cs) :=
  (reads_basicBody multiline _ cs).map fun _ => List.suffix_rfl

theorem extraQuotes_suffix (quote : Char) (body : String) (cs : List Char) : (extraQuotes quote body cs).2 <:+ cs :=
  List.drop_suffix _ _

theorem dropNewline_suffix (cs : List Char) : dropNewline cs <:+ cs := by
  unfold dropNewline
  split
  · exact List.suffix_cons _ _
  · exact List.suffix_rfl

theorem reads_stringValue? {cs : List Char} {r : Except Fault (String × List Char)} (h : stringValue? cs = some r) :
    Reads Prod.snd cs r := by
  unfold stringValue? at h
  split at h
  · rename_i rest
    cases h
    refine .of_suffix ((reads_basicString true _).map fun _ => extraQuotes_suffix _ _ _) ?_
    exact (dropNewline_suffix rest).trans (List.suffix_append ['"', '"', '"'] rest)
  · rename_i rest _
    cases h
    exact .of_suffix (reads_basicString false rest) (List.suffix_cons _ rest)
  · rename_i rest
    cases h
    refine .of_suffix ((reads_literalBody _ _ _).map fun _ => extraQuotes_suffix _ _ _) ?_
    exact (dropNewline_suffix rest).trans (List.suffix_append ['\'', '\'', '\''] rest)
  · rename_i rest _
    cases h
    exact .of_suffix (reads_literalBody _ _ rest) (List.suffix_cons _ rest)
  · cases h

/-- A run of digits and underscores stands in front, and its digits are what is taken. -/
def TakesRun (isDigit : Char → Bool) (cs : List Char) (taken : List Char × List Char) : Prop :=
  ∃ run, run ++ taken.2 = cs ∧ (∀ c ∈ run, isDigit c = true ∨ c = '_') ∧ run.countP isDigit = taken.1.length

namespace TakesRun

variable {isDigit : Char → Bool} {cs : List Char} {taken : List Char × List Char}

theorem nothing : TakesRun isDigit cs ([], cs) := ⟨[], rfl, by simp, rfl⟩

theorem digit {c : Char} (hc : isDigit c = true) (h : TakesRun isDigit cs taken) :
    TakesRun isDigit (c :: cs) (c :: taken.1, taken.2) := by
  obtain ⟨run, hrun, hmem, hcount⟩ := h
  exact ⟨c :: run, by simp [hrun], by simpa [hc] using hmem, by simp [hc, hcount]⟩

theorem underscore (hu : isDigit '_' = false) (h : TakesRun isDigit cs taken) : TakesRun isDigit ('_' :: cs) taken := by
  obtain ⟨run, hrun, hmem, hcount⟩ := h
  exact ⟨'_' :: run, by simp [hrun], by simpa using hmem, by simp [hu, hcount]⟩

theorem suffix (h : TakesRun isDigit cs taken) : taken.2 <:+ cs := by
  obtain ⟨run, hrun, -⟩ := h
  exact ⟨run, hrun⟩

end TakesRun

theorem takesRun_continued {isDigit : Char → Bool} (hu : isDigit '_' = false) (cs : List Char) :
    TakesRun isDigit cs (digitRun.continued isDigit cs) := by
  fun_induction digitRun.continued isDigit cs with
  | case1 c rest hc more after heq ih =>
    rw [heq] at ih
    exact (ih.digit hc).underscore hu
  | case2 c rest hc => exact .nothing
  | case3 c rest hne hc more after heq ih =>
    rw [heq] at ih
    exact ih.digit hc
  | case4 c rest hne hc => exact .nothing
  | case5 => exact .nothing

theorem takesRun_digitRun {isDigit : Char → Bool} (hu : isDigit '_' = false) (cs : List Char) :
    TakesRun isDigit cs (digitRun isDigit cs) := by
  unfold digitRun
  split
  · split
    · exact (takesRun_continued hu _).digit (by assumption)
    · exact .nothing
  · exact .nothing

theorem twoDigits?_suffix {lo hi n : Nat} {cs rest : List Char} (h : twoDigits? lo hi cs = some (n, rest)) : rest <:+ cs := by
  unfold twoDigits? at h
  split at h
  · rename_i a b rest'
    simp only [Option.ite_none_right_eq_some, Option.some.injEq, Prod.mk.injEq] at h
    obtain ⟨-, -, rfl⟩ := h
    exact List.suffix_append [a, b] _
  · cases h

theorem mark?_suffix {isMark : Char → Bool} {cs rest : List Char} (h : mark? isMark cs = some rest) : rest <:+ cs := by
  unfold mark? at h
  split at h
  · rename_i c rest'
    simp only [Option.ite_none_right_eq_some, Option.some.injEq] at h
    obtain ⟨-, rfl⟩ := h
    exact List.suffix_cons _ _
  · cases h

theorem time?_suffix {cs rest : List Char} (h : time? cs = some rest) : rest <:+ cs := by
  simp only [time?, Option.bind_eq_bind, Option.bind_eq_some_iff] at h
  obtain ⟨⟨hour, afterHour⟩, hhour, colon, hcolon, ⟨minute, afterMinute⟩, hminute, colon', hcolon', ⟨second, afterSecond⟩,
    hsecond, h⟩ := h
  have hs : afterSecond <:+ cs := (twoDigits?_suffix hsecond).trans ((mark?_suffix hcolon').trans
    ((twoDigits?_suffix hminute).trans ((mark?_suffix hcolon).trans (twoDigits?_suffix hhour))))
  refine .trans ?_ hs
  dsimp only at h
  split at h
  · rename_i c after
    split at h
    · cases h
      exact (List.dropWhile_suffix _).trans (List.suffix_append ['.', c] after)
    · cases h
      exact List.suffix_rfl
  · cases h
    exact List.suffix_rfl

theorem getD_suffix {found : Option (List Char)} {cs : List Char} (h : ∀ rest, found = some rest → rest <:+ cs) :
    found.getD cs <:+ cs := by
  cases found with
  | none => exact List.suffix_rfl
  | some rest => exact h rest rfl

theorem offset_suffix (cs : List Char) : offset cs <:+ cs := by
  unfold offset
  simp only
  split
  · exact List.suffix_cons _ _
  · exact List.suffix_cons _ _
  · refine getD_suffix fun rest h => ?_
    simp only [Option.bind_eq_bind, Option.bind_eq_some_iff] at h
    obtain ⟨signed, hsigned, ⟨hour, afterHour⟩, hhour, colon, hcolon, ⟨minute, afterMinute⟩, hminute, h⟩ := h
    cases h
    exact (twoDigits?_suffix hminute).trans ((mark?_suffix hcolon).trans ((twoDigits?_suffix hhour).trans
      (mark?_suffix hsigned)))

theorem dateTime?_suffix {cs rest : List Char} {valid : Bool} (h : dateTime? cs = some (valid, rest)) : rest <:+ cs := by
  simp only [dateTime?] at h
  split at h
  · cases h
  · simp only [Option.bind_eq_bind, Option.bind_eq_some_iff] at h
    obtain ⟨dash, hdash, ⟨month, afterMonth⟩, hmonth, dash', hdash', ⟨day, afterDay⟩, hday, h⟩ := h
    have hs : afterDay <:+ cs := (twoDigits?_suffix hday).trans ((mark?_suffix hdash').trans ((twoDigits?_suffix hmonth).trans
      ((mark?_suffix hdash).trans (List.drop_suffix _ _))))
    obtain ⟨-, rfl⟩ := Prod.mk.inj (Option.some.inj h)
    refine .trans (getD_suffix fun rest h => ?_) hs
    obtain ⟨timed, htimed, rfl⟩ := Option.map_eq_some_iff.1 h
    obtain ⟨afterMark, hmark, htime⟩ := Option.bind_eq_some_iff.1 htimed
    exact (offset_suffix timed).trans ((time?_suffix htime).trans (mark?_suffix hmark))

theorem sign_suffix (cs : List Char) : (sign cs).2 <:+ cs := by
  unfold sign
  split
  · exact List.suffix_cons _ _
  · exact List.suffix_cons _ _
  · exact List.suffix_rfl

theorem fraction_suffix (cs : List Char) : (fraction cs).2 <:+ cs := by
  unfold fraction
  split
  · rename_i rest
    split
    · exact List.suffix_rfl
    · rename_i digits after hne hrun
      have hs : (digitRun Char.isDigit rest).2 <:+ rest := (takesRun_digitRun (by decide) rest).suffix
      rw [hrun] at hs
      exact hs.trans (List.suffix_cons _ _)
  · exact List.suffix_rfl

theorem exponent?_suffix {cs rest : List Char} {power : Int} (h : exponent? cs = some (power, rest)) : rest <:+ cs := by
  unfold exponent? at h
  split at h
  · rename_i c after
    split at h
    · simp only at h
      split at h
      · cases h
      · rename_i digits after' hne hrun
        cases h
        have hs : (digitRun Char.isDigit (sign after).2).2 <:+ (sign after).2 := (takesRun_digitRun (by decide) _).suffix
        rw [hrun] at hs
        exact hs.trans ((sign_suffix after).trans (List.suffix_cons _ _))
    · cases h
  · cases h

theorem radixNumber?_suffix {cs rest : List Char} {n : Nat} (h : radixNumber? cs = some (n, rest)) : rest <:+ cs := by
  unfold radixNumber? at h
  split at h
  · rename_i c after
    have hrun : ∀ (isDigit : Char → Bool) (digits after' : List Char), isDigit '_' = false →
        digitRun isDigit after = (digits, after') → after' <:+ '0' :: c :: after := by
      intro isDigit digits after' hu hdigits
      have hs := (takesRun_digitRun hu after).suffix
      rw [hdigits] at hs
      exact hs.trans (List.suffix_append ['0', c] after)
    simp only at h
    split at h
    · split at h
      · cases h
      · rename_i hdigits
        cases h
        exact hrun _ _ _ (by decide) hdigits
    · split at h
      · split at h
        · cases h
        · rename_i hdigits
          cases h
          exact hrun _ _ _ (by decide) hdigits
      · split at h
        · split at h
          · cases h
          · rename_i hdigits
            cases h
            exact hrun _ _ _ (by decide) hdigits
        · cases h
  · cases h

/-- A whole number is a zero or a run of digits. -/
theorem whole?_run {cs digits rest : List Char} (h : whole? cs = some (digits, rest)) :
    TakesRun Char.isDigit cs (digits, rest) := by
  unfold whole? at h
  split at h
  · cases h
    exact .digit (by decide) .nothing
  · rename_i c after _
    split at h
    · rw [← Option.some.inj h]
      exact takesRun_digitRun (by decide) _
    · cases h
  · cases h

theorem TakesRun.holdsLong {cs : List Char} {taken : List Char × List Char} (h : TakesRun Char.isDigit cs taken)
    (hlimit : digitLimit < taken.1.length) : HoldsLong taken.1.length cs := by
  obtain ⟨run, hrun, hmem, hcount⟩ := h
  exact ⟨hlimit, run, ⟨[], taken.2, by simpa using hrun⟩, hmem, hcount⟩

theorem reads_decimalNumber? {cs : List Char} {r : Except Fault (Data.Value × List Char)} (h : decimalNumber? cs = some r) :
    Reads Prod.snd cs r := by
  simp only [decimalNumber?, Option.bind_eq_bind, Option.bind_eq_some_iff] at h
  obtain ⟨⟨digits, rest⟩, hwhole, h⟩ := h
  have hrun := whole?_run hwhole
  refine .of_suffix ?_ (sign_suffix cs)
  have hfraction : (fraction rest).2 <:+ (sign cs).2 := (fraction_suffix rest).trans hrun.suffix
  dsimp only at h
  split at h
  · rename_i power after hpower
    cases h
    exact .ok ((exponent?_suffix hpower).trans hfraction)
  · split at h
    · cases h
      exact .ok hfraction
    · split at h
      · rename_i hlimit
        cases h
        refine ⟨fun a ha => (by cases ha), fun n unread hn => ?_⟩
        cases hn
        exact hrun.holdsLong hlimit
      · cases h
        exact .ok hfraction

theorem wordValue?_suffix {words : List (String × Data.Value)} {cs : List Char} {found : Data.Value × List Char}
    (h : wordValue? words cs = some found) : found.2 <:+ cs := by
  obtain ⟨word, -, rfl⟩ := Option.map_eq_some_iff.1 h
  exact List.drop_suffix _ _

theorem reads_plainValue (cs : List Char) : Reads Prod.snd cs (plainValue cs) := by
  unfold plainValue
  simp only
  split
  · exact .ok (dateTime?_suffix (by assumption))
  · exact .fault (by simp)
  · split
    · exact .ok (time?_suffix (by assumption))
    · split
      · exact .ok (radixNumber?_suffix (by assumption))
      · split
        · exact reads_decimalNumber? (by assumption)
        · split
          · exact .ok (wordValue?_suffix (by assumption))
          · exact .fault (by simp)

theorem ne_of_isDigit {c k : Char} (hc : c.isDigit = true) (hk : k.isDigit = false) : c ≠ k := by
  intro heq
  rw [heq, hk] at hc
  cases hc

theorem continued_digits {ds : List Char} (h : ∀ c ∈ ds, c.isDigit = true) :
    digitRun.continued Char.isDigit ds = (ds, []) := by
  induction ds with
  | nil => rfl
  | cons c ds ih =>
    have hc := h c (by simp)
    rw [digitRun.continued.eq_def]
    split
    · rename_i heq
      exact absurd (List.cons.inj heq).1 (ne_of_isDigit hc (by decide))
    · rename_i heq
      obtain ⟨rfl, rfl⟩ := List.cons.inj heq
      simp [hc, ih fun x hx => h x (by simp [hx])]
    · rename_i heq
      cases heq

theorem digitRun_digits {c : Char} {ds : List Char} (h : ∀ x ∈ c :: ds, x.isDigit = true) :
    digitRun Char.isDigit (c :: ds) = (c :: ds, []) := by
  have hds : ∀ x ∈ ds, x.isDigit = true := fun x hx => h x (by simp [hx])
  simp [digitRun, h c (by simp), continued_digits hds]

theorem mark?_digits {k : Char} {cs : List Char} (hk : k.isDigit = false) (h : ∀ c ∈ cs, c.isDigit = true) :
    mark? (· == k) cs = none := by
  cases cs with
  | nil => rfl
  | cons c cs => simp [mark?, ne_of_isDigit (h c (by simp)) hk]

theorem dateTime?_digits {cs : List Char} (h : ∀ c ∈ cs, c.isDigit = true) : dateTime? cs = none := by
  have hdash : mark? (· == '-') (cs.drop 4) = none := mark?_digits (by decide) fun c hc => h c (List.mem_of_mem_drop hc)
  simp [dateTime?, hdash]

theorem time?_digits {cs : List Char} (h : ∀ c ∈ cs, c.isDigit = true) : time? cs = none := by
  cases hhour : twoDigits? 0 23 cs with
  | none => simp [time?, hhour]
  | some found =>
    have hs : found.2 <:+ cs := twoDigits?_suffix hhour
    have hcolon : mark? (· == ':') found.2 = none := mark?_digits (by decide) fun c hc => h c (hs.subset hc)
    simp [time?, hhour, hcolon]

section

variable {c : Char} {ds : List Char} (hd : ∀ x ∈ c :: ds, x.isDigit = true) (hc : c ≠ '0')
  (hlimit : digitLimit < (c :: ds).length)

include hd hc hlimit

theorem decimalNumber?_long :
    decimalNumber? (c :: ds) = some (fault (.tooLong (c :: ds).length) (c :: ds)) := by
  have hdigit := hd c (by simp)
  have hsign : sign (c :: ds) = (false, c :: ds) := by
    unfold sign
    split
    · rename_i heq
      exact absurd (List.cons.inj heq).1 (ne_of_isDigit hdigit (by decide))
    · rename_i heq
      exact absurd (List.cons.inj heq).1 (ne_of_isDigit hdigit (by decide))
    · rfl
  have hwhole : whole? (c :: ds) = some (c :: ds, []) := by
    unfold whole?
    split
    · rename_i heq
      exact absurd (List.cons.inj heq).1 hc
    · rename_i heq
      obtain ⟨rfl, rfl⟩ := List.cons.inj heq
      rw [if_pos hdigit, digitRun_digits hd]
    · rename_i heq
      cases heq
  simp only [decimalNumber?, hsign, hwhole, Option.bind_eq_bind, Option.bind_some, fraction, exponent?, List.isEmpty_nil,
    Bool.not_true, Bool.false_eq_true, if_false, if_pos hlimit]
  rfl

/-- Digits alone, without a zero in front, are no date, no time and no number in another base. -/
theorem plainValue_long : plainValue (c :: ds) = fault (.tooLong (c :: ds).length) (c :: ds) := by
  have hradix : radixNumber? (c :: ds) = none := by
    unfold radixNumber?
    split
    · rename_i heq
      exact absurd (List.cons.inj heq).1 hc
    · rfl
  simp only [plainValue, dateTime?_digits hd, time?_digits hd, hradix, decimalNumber?_long hd hc hlimit]

end

end TimeLint.Toml
