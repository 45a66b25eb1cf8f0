import TimeLint.Offense.Check
import TimeLint.Proofs.Offsets
import TimeLint.Proofs.Tangles

/-! Correcting a text again and again. An edit covers the seven letters of the target and the six of a selector
and writes eleven, so every edit makes the text shorter by two bytes at least. Nothing has to be known about
how the tree of the new text compares with that of the old one: the length of the text alone bounds the
number of rounds. -/

namespace TimeLint

namespace Edit

theorem growths_le {es : List Edit} (h : ∀ e ∈ es, e.growth ≤ -2) : growths es ≤ -2 * es.length := by
  induction es with
  | nil => simp [growths]
  | cons e es ih =>
    have he := h e (by simp)
    have hes := ih fun e he => h e (by simp [he])
    simp only [growths, List.length_cons]
    omega

end Edit

namespace Offense

open Cursor

variable {source : Bytes} {tree : Node} {e : Edit}

/-- In a grammatical tree the receiver and the selector of a corrected call stand side by side in its edit. -/
theorem growth_le (h : tree.Grammatical source.length) (he : e ∈ (checkTree source tree).edits) : e.growth ≤ -2 := by
  rw [(edits_perm_corrections source tree).mem_iff, List.mem_filterMap] at he
  obtain ⟨k, hk, he⟩ := he
  rw [correction?_eq_some_iff] at he
  obtain ⟨hspan, -⟩ := h.spanned.visited hk
  obtain ⟨first, last, receiver, selector, hst⟩ := he.stretch hspan
  have hlt : first < last := (h _ (node_mem_nodes hk)).2.receiverFirst he.isCall first hst.receiverIn last hst.methodIn
  have horder := stop_le_start hspan hst.receiverAt hst.selectorAt hlt
  have hreceiver := hst.receiverCovers
  have hselector := hst.selectorCovers
  rw [Edit.growth, hst.written, hst.start, hst.stop]
  omega

end Offense

variable {parse : Parser} {source : Bytes}

/-- One round on a text with a grammatical tree succeeds, and each edit takes two bytes at least. -/
theorem correct_shrinks (h : (parse source).Grammatical source.length) :
    ∃ fixed, correct parse source = .ok fixed ∧ fixed.length + 2 * (checkSource parse source).edits.length ≤ source.length := by
  have hchain := Offense.chain_checkTree h
  refine ⟨_, Edit.apply_of_chain hchain, ?_⟩
  have hlength := hchain.line.length_foldr_splice (Int.le_refl 0)
  have hgrowths := Edit.growths_le fun e he => Offense.growth_le h he
  rw [checkSource]
  omega

/-- A text without edits is left as it is. -/
theorem correct_of_settled (h : (checkSource parse source).edits = []) : correct parse source = .ok source := by
  rw [correct, h, Edit.apply_nil]

/-- The text after so many rounds. -/
def rounds (parse : Parser) : Nat → Bytes → Except Edit.Refusal Bytes
  | 0, source => .ok source
  | n + 1, source => (correct parse source).bind (rounds parse n)

theorem rounds_succ {fixed : Bytes} (h : correct parse source = .ok fixed) (n : Nat) :
    rounds parse (n + 1) source = rounds parse n fixed := by
  rw [rounds, h]
  rfl

theorem rounds_of_settled (h : (checkSource parse source).edits = []) (n : Nat) : rounds parse n source = .ok source := by
  induction n with
  | zero => rfl
  | succ n ih => rw [rounds_succ (correct_of_settled h), ih]

/-- The rounds change the text at first, each of them making it shorter, and then never again. -/
theorem rounds_settled (hparse : ∀ source, (parse source).Grammatical source.length) (source : Bytes) :
    ∃ count final, 2 * count + final.length ≤ source.length ∧ (checkSource parse final).edits = [] ∧
      (∀ n, count ≤ n → rounds parse n source = .ok final) ∧
      ∀ n < count, ∃ before after, rounds parse n source = .ok before ∧ correct parse before = .ok after ∧
        rounds parse (n + 1) source = .ok after ∧ after.length < before.length := by
  induction hsize : source.length using Nat.strong_induction_on generalizing source with
  | _ size ih =>
    obtain ⟨fixed, hfixed, hshort⟩ := correct_shrinks (hparse source)
    by_cases hnone : (checkSource parse source).edits = []
    · exact ⟨0, source, by omega, hnone, fun n _ => rounds_of_settled hnone n, by simp⟩
    · have hpos := List.length_pos_iff.2 hnone
      obtain ⟨count, final, hbound, hfinal, hlater, hfirst⟩ := ih fixed.length (by omega) fixed rfl
      refine ⟨count + 1, final, by omega, hfinal, fun n hn => ?_, fun n hn => ?_⟩
      · obtain ⟨m, rfl⟩ : ∃ m, n = m + 1 := ⟨n - 1, by omega⟩
        rw [rounds_succ hfixed]
        exact hlater m (by omega)
      · cases n with
        | zero => exact ⟨source, fixed, rfl, hfixed, rounds_succ hfixed 0, by omega⟩
        | succ m =>
          rw [rounds_succ hfixed, rounds_succ hfixed]
          exact hfirst m (by omega)

/-- Repeated correction ends. A round with `n` edits makes the text shorter by `2 * n` bytes at least; from any
text, the rounds that change anything are the first ones, no more than half as many as the text has bytes, and
the text they end with is one without edits. -/
theorem repeated_correction_ends (parse : Parser) (hparse : ∀ source, (parse source).Grammatical source.length)
    (source : Bytes) :
    (∃ fixed, correct parse source = .ok fixed ∧
        fixed.length + 2 * (checkSource parse source).edits.length ≤ source.length) ∧
      ∃ count ≤ source.length / 2, ∃ final, (checkSource parse final).edits = [] ∧ correct parse final = .ok final ∧
        (∀ n, count ≤ n → rounds parse n source = .ok final) ∧
        ∀ n < count, ∃ before after, rounds parse n source = .ok before ∧ correct parse before = .ok after ∧
          rounds parse (n + 1) source = .ok after ∧ after ≠ before := by
  refine ⟨correct_shrinks (hparse source), ?_⟩
  obtain ⟨count, final, hbound, hfinal, hlater, hfirst⟩ := rounds_settled hparse source
  refine ⟨count, by omega, final, hfinal, correct_of_settled hfinal, hlater, fun n hn => ?_⟩
  obtain ⟨before, after, hbefore, hround, hafter, hlt⟩ := hfirst n hn
  refine ⟨before, after, hbefore, hround, hafter, ?_⟩
  rintro rfl
  omega

/-- A parser that knows one text with corrected calls, one in the block of the other. -/
def nestedParser : Parser := fun source =>
  if source = Offense.nestedSource then Offense.nestedTree else Offense.lineNode "program" 0 0 true none []

theorem grammatical_nestedParser (source : Bytes) : (nestedParser source).Grammatical source.length := by
  unfold nestedParser
  split
  · rename_i h
    rw [h]
    decide
  · intro n hn
    rcases Node.mem_nodes.1 hn with rfl | ⟨c, hc, -⟩
    · exact ⟨⟨by decide, by decide, Int.natCast_nonneg _, by simp [Offense.lineNode], by simp [Offense.lineNode]⟩, by decide⟩
    · simp [Offense.lineNode] at hc

theorem repeated_correction_nested :
    (checkSource nestedParser Offense.nestedSource).edits.length = 2 ∧
      (∃ fixed, correct nestedParser Offense.nestedSource = .ok fixed ∧ fixed.length + 4 ≤ 33) ∧
      ∃ count ≤ 16, ∃ final, (checkSource nestedParser final).edits = [] ∧
        ∀ n, count ≤ n → rounds nestedParser n Offense.nestedSource = .ok final := by
  have hedits : (checkSource nestedParser Offense.nestedSource).edits.length = 2 := by
    rw [checkSource, Offense.checkTree_edits]
    decide +kernel
  have hsize : Offense.nestedSource.length = 33 := rfl
  obtain ⟨⟨fixed, hfixed, hshort⟩, count, hcount, final, hfinal, -, hlater, -⟩ :=
    repeated_correction_ends nestedParser grammatical_nestedParser Offense.nestedSource
  exact ⟨hedits, ⟨fixed, hfixed, by omega⟩, count, by omega, final, hfinal, hlater⟩

end TimeLint
