import TimeLint.Proofs.Verdicts

/-! Names as the bytes of the source spell them. A name is compared after the bytes that are part of no character are
dropped, so it is found wherever its letters stand with nothing but such bytes among them. Where the text is
well-formed, the name is found exactly. -/

namespace TimeLint

/-- The bytes that the node covers. -/
def Node.bytes (source : Bytes) (n : Node) : Bytes := source.slice n.start n.stop

theorem Node.text_eq_iff_spells {source : Bytes} {n : Node} {name : String} (hname : ∀ c ∈ name.toList, c.toNat < 0x80) :
    n.text source = name ↔ Bytes.Spells name (n.bytes source) :=
  Bytes.decodeLossy_eq_iff hname

namespace Offense

open Cursor

variable {source : Bytes} {receiver method : Node} {k c : Cursor} {e : Edit}

/-- The names that are looked for are in ASCII. -/
theorem ascii_of_sought {name : String} (h : name ∈ ["Timecop", "freeze", "return"]) :
    ∀ c ∈ name.toList, c.toNat < 0x80 := by
  simp only [List.mem_cons, List.not_mem_nil, or_false] at h
  rcases h with rfl | rfl | rfl <;> simp

/-- A constant is matched by its letters and by where it stands. -/
theorem reference?_isSome_iff : (reference? source c).isSome = true ↔
    c.node.kind = "constant" ∧ standsFree c = true ∧ Bytes.Spells "Timecop" (c.node.bytes source) := by
  have hmatched : (reference? source c).isSome = isTarget source c := by
    unfold reference?
    split <;> simp_all
  rw [hmatched, ← Node.text_eq_iff_spells (ascii_of_sought (by simp)), isTarget]
  simp only [Bool.and_eq_true, beq_iff_eq, target, and_assoc, and_comm]

/-- A call that sends some method sends the one that its selector spells. -/
theorem sends_iff_spells {name : String} (hname : name ∈ ["Timecop", "freeze", "return"]) :
    Sends source k receiver method name ↔
      (∃ any, Sends source k receiver method any) ∧ Bytes.Spells name (method.bytes source) := by
  rw [← Node.text_eq_iff_spells (ascii_of_sought hname)]
  exact ⟨fun h => ⟨⟨name, h⟩, h.text⟩, fun ⟨⟨any, h⟩, htext⟩ => { h with text := htext }⟩

theorem asks_iff_spells : Asks source k e ↔ ∃ receiver method, (∃ any, Sends source k receiver method any) ∧
    (Bytes.Spells "freeze" (method.bytes source) ∧
        (∀ list, k.node.child? "arguments" = some list → ∀ n ∈ list.children, n.named = true → n.kind = "comment") ∧
        e = ⟨receiver.start, method.stop, "freeze_time"⟩ ∨
      Bytes.Spells "return" (method.bytes source) ∧ k.node.child? "block" = none ∧
        e = ⟨receiver.start, method.stop, "travel_back"⟩) := by
  have hfreeze : "freeze" ∈ ["Timecop", "freeze", "return"] := by simp
  have hreturn : "return" ∈ ["Timecop", "freeze", "return"] := by simp
  refine ⟨fun h => ?_, fun ⟨receiver, method, hany, h⟩ => ?_⟩
  · cases h with
    | freeze sends bare =>
      obtain ⟨hany, hspells⟩ := (sends_iff_spells hfreeze).1 sends
      exact ⟨_, _, hany, Or.inl ⟨hspells, bare, rfl⟩⟩
    | back sends noBlock =>
      obtain ⟨hany, hspells⟩ := (sends_iff_spells hreturn).1 sends
      exact ⟨_, _, hany, Or.inr ⟨hspells, noBlock, rfl⟩⟩
  · rcases h with ⟨hspells, hbare, rfl⟩ | ⟨hspells, hblock, rfl⟩
    · exact .freeze ((sends_iff_spells hfreeze).2 ⟨hany, hspells⟩) hbare
    · exact .back ((sends_iff_spells hreturn).2 ⟨hany, hspells⟩) hblock

/-- A constant is matched if its bytes spell the name of the target, and a call is corrected if those of its selector
spell the name of a method. Bytes that spell a name are the name exactly if they are well-formed. -/
theorem matched_by_spelling (source : Bytes) (tree : Node) :
    (∀ c ∈ preorder [] tree, (reference? source c).isSome = true ↔
      c.node.kind = "constant" ∧ standsFree c = true ∧ Bytes.Spells "Timecop" (c.node.bytes source)) ∧
    (∀ e, e ∈ (checkTree source tree).edits ↔ ∃ k ∈ preorder [] tree, ∃ receiver method,
      (∃ any, Sends source k receiver method any) ∧
      (Bytes.Spells "freeze" (method.bytes source) ∧
          (∀ list, k.node.child? "arguments" = some list → ∀ n ∈ list.children, n.named = true → n.kind = "comment") ∧
          e = ⟨receiver.start, method.stop, "freeze_time"⟩ ∨
        Bytes.Spells "return" (method.bytes source) ∧ k.node.child? "block" = none ∧
          e = ⟨receiver.start, method.stop, "travel_back"⟩)) ∧
    ∀ name ∈ ["Timecop", "freeze", "return"], ∀ n : Node, Bytes.Spells name (n.bytes source) →
      (n.bytes source = Bytes.ofString name ↔ (Bytes.decode (n.bytes source)).isSome = true) := by
  refine ⟨fun c _ => reference?_isSome_iff, fun e => ?_, fun name hname n h => h.eq_iff (ascii_of_sought hname)⟩
  rw [mem_edits_iff]
  simp only [asks_iff_spells]

/-- `Timecop.freeze` in Latin-1, with an accented letter at the end of both names. -/
def accentedSource : Bytes :=
  Bytes.ofString "Timecop" ++ [0xe9] ++ Bytes.ofString ".freeze" ++ [0xe9]

def accentedReceiver : Node := lineNode "constant" 0 8 true (some "receiver") []

def accentedSelector : Node := lineNode "identifier" 9 16 true (some "method") []

def accentedCall : Node :=
  lineNode "call" 0 16 true none [accentedReceiver, lineNode "." 8 9 false none [], accentedSelector]

/-- A letter that is a single byte outside of ASCII is dropped. -/
theorem text_accented {n : Node} {name : String} (h : n.bytes accentedSource = Bytes.ofString name ++ [0xe9]) :
    n.text accentedSource = name := by
  have hdropped : Bytes.decodeLossy [0xe9] = "" := by
    rw [Bytes.decodeLossy, Bytes.decodeCharsLossy]
    have hnone : Bytes.headChar? [0xe9] = none := rfl
    rw [hnone]
    simp [Bytes.decodeCharsLossy]
  have htext : n.text accentedSource = (n.bytes accentedSource).decodeLossy := rfl
  rw [htext, h, Bytes.decodeLossy_ofString_append, hdropped, String.append_empty]

theorem sends_accentedCall : Sends accentedSource ⟨accentedCall, []⟩ accentedReceiver accentedSelector "freeze" :=
  ⟨rfl, rfl, .constant rfl (text_accented rfl), rfl, by decide, ⟨lineNode "." 8 9 false none [], rfl, Or.inl rfl⟩,
    isAssigned_eq_false_iff.1 rfl, text_accented rfl⟩

/-- Longer names of another encoding are matched and corrected: neither the constant nor the selector is the name that
is looked for. -/
theorem accented_names_corrected :
    ∃ c ∈ preorder [] accentedCall, (reference? accentedSource c).isSome = true ∧
      c.node.bytes accentedSource ≠ Bytes.ofString "Timecop" ∧
    ∃ k ∈ preorder [] accentedCall, ∃ method, k.node.child? "method" = some method ∧
      Asks accentedSource k ⟨0, 16, "freeze_time"⟩ ∧
      ⟨0, 16, "freeze_time"⟩ ∈ (checkTree accentedSource accentedCall).edits ∧
      method.bytes accentedSource ≠ Bytes.ofString "freeze" ∧ method.bytes accentedSource ≠ Bytes.ofString "return" := by
  have hk := self_mem_preorder accentedCall []
  have hc : ⟨accentedReceiver, [(accentedCall, 0)]⟩ ∈ preorder [] accentedCall := child_mem_preorder hk rfl
  have hspells : Bytes.Spells "Timecop" (accentedReceiver.bytes accentedSource) :=
    (Node.text_eq_iff_spells (ascii_of_sought (by simp))).1 (text_accented rfl)
  have hasks : Asks accentedSource ⟨accentedCall, []⟩ ⟨0, 16, "freeze_time"⟩ :=
    .freeze sends_accentedCall (argumentCount_eq_zero_iff.1 rfl)
  exact ⟨_, hc, reference?_isSome_iff.2 ⟨rfl, rfl, hspells⟩, by decide, _, hk, accentedSelector, rfl, hasks,
    mem_edits_iff.2 ⟨_, hk, hasks⟩, by decide, by decide⟩

end Offense

end TimeLint
