import TimeLint.Proofs.CallReading
import TimeLint.Proofs.Placement
import TimeLint.Proofs.Utf8

/-! The verdict on a call. A call whose receiver stands for the target is reported once; what is said about it
depends on the method that it sends and, for `return`, on the field `block` alone. A block that is passed among the
arguments is not seen, and the call is corrected all the same. -/

namespace TimeLint

/-- A node that covers the bytes of a string has that string as its text. -/
theorem Node.text_eq {source : Bytes} {n : Node} {s : String} (h : source.slice n.start n.stop = Bytes.ofString s) :
    n.text source = s := by
  rw [Node.text, h, Bytes.decodeLossy_ofString]

namespace Offense

open Cursor

variable {source : Bytes} {tree : Node} {k : Cursor} {r : Reference} {e : Edit}

/-- The call at `k` is made on something that stands for the target. -/
def OnTarget (source : Bytes) (k : Cursor) : Prop :=
  k.node.kind = "call" ∧ ∃ receiver, k.node.child? "receiver" = some receiver ∧ StandsForTarget source receiver

theorem Sends.onTarget {receiver method : Node} {name : String} (h : Sends source k receiver method name) :
    OnTarget source k := ⟨h.isCall, receiver, h.hasReceiver, h.toTarget⟩

theorem calledOn?_of_onTarget (h : OnTarget source k) : ∃ r, calledOn? source k = some r := by
  obtain ⟨hk, receiver, hreceiver, htarget⟩ := h
  obtain ⟨i, hi, hn⟩ := Node.child?_eq_some hreceiver
  exact ⟨_, (calledOn?_receiver hk hi hn).2 ⟨htarget, rfl⟩⟩

/-- The reference that a call is made on is the receiver, with the call read from there. -/
theorem calledOn?_eq_some (h : calledOn? source k = some r) : k.node.kind = "call" ∧ ∃ i,
    k.node.childIndex? "receiver" = some i ∧ k.node.children[i]? = some r.node ∧ StandsForTarget source r.node ∧
      r.call = callOn source ⟨r.node, (k.node, i) :: k.above⟩ := by
  obtain ⟨c, hc, -⟩ := Option.bind_eq_some_iff.1 h
  obtain ⟨hk, x, hx, -⟩ := subject?_eq_some hc
  obtain ⟨i, n, hi, hn, -⟩ := of_inField? hx
  obtain ⟨htarget, rfl⟩ := (calledOn?_receiver hk hi hn).1 h
  exact ⟨hk, i, hi, hn, htarget, rfl⟩

/-- What a visited call is made on is among the references of the tree. -/
theorem mem_references (hk : k ∈ preorder [] tree) (h : calledOn? source k = some r) : r ∈ references source tree := by
  obtain ⟨c, hc, hr⟩ := Option.bind_eq_some_iff.1 h
  rw [references, root, walk_node]
  exact List.mem_filterMap.2 ⟨c, subject?_mem_preorder hk hc, hr⟩

theorem mem_edits_iff : e ∈ (checkTree source tree).edits ↔ ∃ k ∈ preorder [] tree, Asks source k e := by
  rw [(edits_perm_corrections source tree).mem_iff, List.mem_filterMap]
  simp only [correction?_eq_some_iff]

theorem edit_eq_some_iff_asks (h : calledOn? source k = some r) : r.edit = some e ↔ Asks source k e := by
  rw [← correction?_eq_some_iff, correction?_eq, h, Option.bind_some]

theorem correctable_iff_asks (h : calledOn? source k = some r) : r.diagnostic.correctable = true ↔ ∃ e, Asks source k e := by
  rw [correctable_eq, Option.isSome_iff_exists]
  simp only [edit_eq_some_iff_asks h]

/-- A call that asks for no edit is reported as not correctable, and none is made for it. -/
theorem withheld_of_not_asks (h : calledOn? source k = some r) (hno : ∀ e, ¬ Asks source k e) :
    r.diagnostic.correctable = false ∧ r.edit = none := by
  constructor
  · rw [← Bool.not_eq_true, correctable_iff_asks h]
    rintro ⟨e, he⟩
    exact hno e he
  · rw [Option.eq_none_iff_forall_not_mem]
    intro e he
    exact hno e ((edit_eq_some_iff_asks h).1 he)

/-- The method of the shape that is judged is the one that the call sends. -/
theorem shape_method_eq_iff {name : String} (h : calledOn? source k = some r) (hcall : name ≠ "call")
    (hend : name.toList.getLast? ≠ some '=') :
    r.shape.method = some name ↔ ∃ receiver method, Sends source k receiver method name := by
  obtain ⟨hk, i, hi, hn, htarget, hr⟩ := calledOn?_eq_some h
  have hmethod : r.shape.method = r.call.map (·.method) := by
    cases hc : r.call <;> simp [Reference.shape, hc]
  rw [hmethod, hr, Option.map_eq_some_iff]
  constructor
  · rintro ⟨call, hc, hname⟩
    obtain ⟨method, hm, ho, rfl⟩ := (callOn_eq_some_iff hk hi).1 hc
    obtain ⟨hexplicit, hassigned, htext⟩ := (method_callWith_eq_iff hcall hend).1 hname
    exact ⟨r.node, method, hk, Node.child?_of_childIndex? hi hn, htarget, hm, hexplicit, isSend_operator?_iff.1 ho,
      isAssigned_eq_false_iff.1 hassigned, htext⟩
  · rintro ⟨receiver, method, hs⟩
    refine ⟨_, (callOn_eq_some_iff hk hi).2 ⟨method, hs.hasMethod, isSend_operator?_iff.2 hs.operator, rfl⟩, ?_⟩
    exact (method_callWith_eq_iff hcall hend).2 ⟨hs.explicit, isAssigned_eq_false_iff.2 hs.unassigned, hs.text⟩

theorem classify_eq_genericUsage_iff {s : Shape} : (classify s).1 = .genericUsage ↔
    ∀ name ∈ ["freeze", "return", "travel"], s.method ≠ some name := by
  unfold classify
  split
  · rename_i h
    by_cases hc : s.argumentCount = 0 <;> simp [h, hc]
  · rename_i h
    simp [h]
  · rename_i h
    simp [h]
  · rename_i h1 h2 h3
    simpa using ⟨h1, h2, h3⟩

/-- A call is reported as a generic usage exactly if it sends none of the three methods that have an equivalent. -/
theorem kind_eq_genericUsage_iff (h : calledOn? source k = some r) : r.diagnostic.kind = .genericUsage ↔
    ∀ name ∈ ["freeze", "return", "travel"], ∀ receiver method, ¬ Sends source k receiver method name := by
  have hkind : r.diagnostic.kind = (classify r.shape).1 := rfl
  rw [hkind, classify_eq_genericUsage_iff]
  refine forall₂_congr fun name hname => ?_
  have hplain : name ≠ "call" ∧ name.toList.getLast? ≠ some '=' := by
    simp only [List.mem_cons, List.not_mem_nil, or_false] at hname
    rcases hname with rfl | rfl | rfl <;> decide
  rw [Ne, shape_method_eq_iff h hplain.1 hplain.2]
  simp only [not_exists]

/-- What is reported as a generic usage is not corrected. -/
theorem withheld_of_genericUsage (h : calledOn? source k = some r) (hkind : r.diagnostic.kind = .genericUsage) :
    r.diagnostic.correctable = false ∧ r.edit = none := by
  refine withheld_of_not_asks h fun e he => ?_
  have hno := (kind_eq_genericUsage_iff h).1 hkind
  cases he with
  | freeze sends _ => exact hno "freeze" (by simp) _ _ sends
  | back sends _ => exact hno "return" (by simp) _ _ sends

/-- A call that asks for an edit is reported as correctable, not as a generic usage, and the edit is made. -/
theorem reported_of_asks (hk : k ∈ preorder [] tree) (he : Asks source k e) :
    ∃ r ∈ references source tree, calledOn? source k = some r ∧ r.diagnostic.kind ≠ .genericUsage ∧
      r.diagnostic.correctable = true ∧ r.edit = some e ∧ e ∈ (checkTree source tree).edits := by
  obtain ⟨r, hr, hedit⟩ := Option.bind_eq_some_iff.1 ((correction?_eq source k).symm.trans (correction?_eq_some_iff.2 he))
  have hcorrectable := (correctable_iff_asks hr).2 ⟨e, he⟩
  refine ⟨r, mem_references hk hr, hr, fun hkind => ?_, hcorrectable, hedit, mem_edits_iff.2 ⟨k, hk, he⟩⟩
  rw [(withheld_of_genericUsage hr hkind).1] at hcorrectable
  cases hcorrectable

/-- The edit for a call whose selector reads `return`. -/
theorem asks_iff_of_return {method : Node} (hm : k.node.child? "method" = some method) (htext : method.text source = "return") :
    Asks source k e ↔ k.node.child? "block" = none ∧ ∃ receiver, Sends source k receiver method "return" ∧
      e = ⟨receiver.start, method.stop, "travel_back"⟩ := by
  constructor
  · intro h
    cases h with
    | freeze sends _ =>
      obtain rfl : method = _ := Option.some.inj (hm.symm.trans sends.hasMethod)
      have := htext.symm.trans sends.text
      simp at this
    | back sends noBlock =>
      obtain rfl : method = _ := Option.some.inj (hm.symm.trans sends.hasMethod)
      exact ⟨noBlock, _, sends, rfl⟩
  · rintro ⟨hblock, receiver, hs, rfl⟩
    exact .back hs hblock

/-- `return` is corrected in every plain send of it without a child in the field `block`, and in no other call. The
arguments play no part in this, a block among them neither. -/
theorem return_corrected_iff (source : Bytes) (tree : Node) (k : Cursor) (method : Node) (hk : k ∈ preorder [] tree)
    (hon : OnTarget source k) (hm : k.node.child? "method" = some method) (htext : method.text source = "return") :
    ∃ r ∈ references source tree, calledOn? source k = some r ∧
      (r.diagnostic.correctable = true ↔
        k.node.child? "block" = none ∧ ∃ receiver, Sends source k receiver method "return") ∧
      ∀ e, r.edit = some e ↔ k.node.child? "block" = none ∧ ∃ receiver, Sends source k receiver method "return" ∧
        e = ⟨receiver.start, method.stop, "travel_back"⟩ := by
  obtain ⟨r, hr⟩ := calledOn?_of_onTarget hon
  refine ⟨r, mem_references hk hr, hr, ?_, fun e => ?_⟩
  · rw [correctable_iff_asks hr]
    simp only [asks_iff_of_return hm htext]
    constructor
    · rintro ⟨e, hblock, receiver, hs, -⟩
      exact ⟨hblock, receiver, hs⟩
    · rintro ⟨hblock, receiver, hs⟩
      exact ⟨_, hblock, receiver, hs, rfl⟩
  · rw [edit_eq_some_iff_asks hr, asks_iff_of_return hm htext]

/-- `sendAt` is a plain send of the name that its selector covers. -/
theorem sends_sendAt {start stop : Int} {field : Option String} {rest : List Node} {above : List (Node × Nat)} {name : String}
    (htarget : source.slice start (start + 7) = Bytes.ofString "Timecop")
    (hname : source.slice (start + 8) (start + 14) = Bytes.ofString name)
    (hrest : ∀ n ∈ rest, n.named = true ∨ start + 8 < n.stop)
    (hfree : isAssigned ⟨sendAt start stop field rest, above⟩ = false) :
    Sends source ⟨sendAt start stop field rest, above⟩ (lineNode "constant" start (start + 7) true (some "receiver") [])
      (lineNode "identifier" (start + 8) (start + 14) true (some "method") []) name := by
  have hexplicit : "identifier" ≠ "argument_list" := by decide
  have hbehind : rest.filter (fun n => !n.named && decide (n.stop ≤ start + 8)) = [] := by
    rw [List.filter_eq_nil_iff]
    intro n hn
    rcases hrest n hn with h | h
    · simp [h]
    · simp [Int.not_le.2 h]
  have hfront : ∀ p : Node → Bool, (sendAt start stop field rest).children.filter p =
      [lineNode "constant" start (start + 7) true (some "receiver") [], lineNode "." (start + 7) (start + 8) false none [],
        lineNode "identifier" (start + 8) (start + 14) true (some "method") []].filter p ++ rest.filter p := by
    intro p
    rw [← List.filter_append]
    rfl
  refine ⟨rfl, rfl, .constant rfl (Node.text_eq htarget), rfl, hexplicit, ?_, isAssigned_eq_false_iff.1 hfree, Node.text_eq hname⟩
  refine ⟨lineNode "." (start + 7) (start + 8) false none [], ?_, Or.inl rfl⟩
  have hselector : (lineNode "identifier" (start + 8) (start + 14) true (some "method") []).start = start + 8 := rfl
  rw [hselector, hfront, hbehind]
  simp [lineNode, Node.stop]

/-- A call of `return` that is given a block among its arguments, `Timecop.return(&blk)`. -/
def passedSource : Bytes := Bytes.ofString "Timecop.return(&blk)"

def passedBlock : Node :=
  lineNode "block_argument" 15 19 true none [lineNode "&" 15 16 false none [], lineNode "identifier" 16 19 true none []]

def passedList : Node :=
  lineNode "argument_list" 14 20 true (some "arguments")
    [lineNode "(" 14 15 false none [], passedBlock, lineNode ")" 19 20 false none []]

def passedTree : Node := lineNode "program" 0 20 true none [sendAt 0 20 none [passedList]]

/-- A block that is passed as an argument does not keep the call from being corrected: a method that takes no block
is given one. -/
theorem passed_block_corrected : ∃ k ∈ preorder [] passedTree, ∃ receiver method,
    Sends passedSource k receiver method "return" ∧ k.node.child? "arguments" = some passedList ∧
    passedBlock ∈ passedList.children ∧ passedBlock.kind = "block_argument" ∧
    ∃ r ∈ references passedSource passedTree, calledOn? passedSource k = some r ∧ r.diagnostic.kind ≠ .genericUsage ∧
      r.diagnostic.correctable = true ∧ r.edit = some ⟨0, 14, "travel_back"⟩ ∧
      ⟨0, 14, "travel_back"⟩ ∈ (checkTree passedSource passedTree).edits := by
  have hk : ⟨sendAt 0 20 none [passedList], [(passedTree, 0)]⟩ ∈ preorder [] passedTree :=
    child_mem_preorder (self_mem_preorder passedTree []) rfl
  have hs : Sends passedSource ⟨sendAt 0 20 none [passedList], [(passedTree, 0)]⟩ _ _ "return" :=
    sends_sendAt rfl rfl (by simp [passedList, lineNode]) rfl
  exact ⟨_, hk, _, _, hs, rfl, by simp [passedList, lineNode], rfl, reported_of_asks hk (.back hs rfl)⟩

/-- The same call with a block behind it, `Timecop.return(&blk) {}`. -/
def givenSource : Bytes := Bytes.ofString "Timecop.return(&blk) \x7b\x7d"

def givenTree : Node :=
  lineNode "program" 0 23 true none [sendAt 0 23 none [passedList, lineNode "block" 21 23 true (some "block") []]]

/-- The block behind the call withholds the correction. -/
theorem return_withheld_for_block : ∃ k ∈ preorder [] givenTree, ∃ method, OnTarget givenSource k ∧
    k.node.child? "method" = some method ∧ method.text givenSource = "return" ∧ k.node.child? "block" ≠ none ∧
    ∃ r ∈ references givenSource givenTree, calledOn? givenSource k = some r ∧ r.diagnostic.correctable = false ∧
      r.edit = none := by
  have hk : ⟨sendAt 0 23 none [passedList, lineNode "block" 21 23 true (some "block") []], [(givenTree, 0)]⟩ ∈
      preorder [] givenTree := child_mem_preorder (self_mem_preorder givenTree []) rfl
  have hs : Sends givenSource ⟨sendAt 0 23 none [passedList, lineNode "block" 21 23 true (some "block") []], [(givenTree, 0)]⟩
      _ _ "return" := sends_sendAt rfl rfl (by simp [passedList, lineNode]) rfl
  have hblock : (sendAt 0 23 none [passedList, lineNode "block" 21 23 true (some "block") []]).child? "block" ≠ none := by
    decide
  obtain ⟨r, hmem, hr, hcorrectable, hedit⟩ :=
    return_corrected_iff givenSource givenTree _ _ hk hs.onTarget hs.hasMethod hs.text
  refine ⟨_, hk, _, hs.onTarget, hs.hasMethod, hs.text, hblock, r, hmem, hr, ?_, ?_⟩
  · rw [← Bool.not_eq_true, hcorrectable]
    exact fun h => hblock h.1
  · rw [Option.eq_none_iff_forall_not_mem]
    exact fun e he => hblock ((hedit e).1 he).1

end Offense

end TimeLint
