import TimeLint.Proofs.Mirror

/-! A check of the corrected tree reports what was not correctable, in the same order and at the moved
places, and has nothing left to correct. One condition of the grammar is needed for this: that a corrected
call never stands for the arguments of another call, since as a bare token it would no longer count. -/

namespace TimeLint

/-- What is left to report once the corrections are made. -/
def Layout.remaining (l : Layout) (ds : List Diagnostic) : List Diagnostic :=
  (ds.filter fun d => !d.correctable).map l.diagnostic

theorem Layout.remaining_append (l : Layout) (ds ds' : List Diagnostic) :
    l.remaining (ds ++ ds') = l.remaining ds ++ l.remaining ds' := by
  simp [remaining]

namespace Offense

open Cursor

variable {source fixed : Bytes} {tree : Node} {l : Layout} {n : Node} {above : List (Node × Nat)}

theorem atTargets_reported : AtTargets source (reported source) := by
  intro c hc
  simp [reported, reference?, hc]

theorem rangeOf_moved {a b a' b' : Node} (ha : a'.extent = l.extent a.extent) (hb : b'.extent = l.extent b.extent) :
    rangeOf a' b' = l.range (rangeOf a b) := by
  simp [rangeOf, Layout.range, Node.start, Node.stop, ha, hb, Layout.extent]

/-- The verdict does not depend on how the call is spread over lines. -/
theorem classify_eq {s s' : Shape} (hm : s'.method = s.method) (hc : s'.argumentCount = s.argumentCount)
    (hb : s'.hasBlock = s.hasBlock) : classify s' = classify s := by
  unfold classify
  rw [hm, hc, hb]

theorem diagnostic_moved {r r' : Reference} (hnode : r'.node.extent = l.extent r.node.extent)
    (hcall : Option.Rel (Call.Moved l) r.call r'.call) : r'.diagnostic = l.diagnostic r.diagnostic := by
  obtain ⟨node, call⟩ := r
  obtain ⟨node', call'⟩ := r'
  cases hcall with
  | none => simp [Reference.diagnostic, Reference.shape, Reference.range, Layout.diagnostic, rangeOf_moved hnode hnode]
  | @some call call' hmoved =>
    have hclass : classify (Reference.shape ⟨node', some call'⟩) = classify (Reference.shape ⟨node, some call⟩) := by
      refine classify_eq ?_ ?_ ?_
      · simp [Reference.shape, hmoved.method]
      · simp [Reference.shape, hmoved.count]
      · simp [Reference.shape, hmoved.block]
    simp only [Reference.diagnostic, hclass, Reference.range, Layout.diagnostic, rangeOf_moved hnode hmoved.extent]

theorem Amendment.isTarget_mirrored (A : Amendment source tree l fixed) (h : Survives source tree above n) :
    isTarget fixed (mirrored source l ⟨n, above⟩) = isTarget source ⟨n, above⟩ := by
  by_cases hn : n.kind = "constant"
  · have hplain : correction? source ⟨n, above⟩ = none := correction?_of_kind (by simp [hn])
    have hleaf := (h.grammatical A.grammatical).arranged.constantLeaf hn
    have hempty : gather (editAt source) above n = [] := by
      rw [gather_leaf _ hleaf, h.editAt_eq A.grammatical]
      rfl
    have hkind : (amend source l above n).kind = n.kind := by rw [amend_plain hplain]
    have htext : (amend source l above n).text fixed = n.text source := A.text_eq h hempty (amend_extent hplain)
    have hfree := A.standsFree_mirrored h
    simp only [isTarget, hfree]
    simp only [mirrored, hkind, htext]
  · have hne : (amend source l above n).kind ≠ "constant" := by
      rcases @amend_kind source l n above with hk | ⟨-, hk⟩ <;> simp [hk, hn]
    rw [isTarget_of_kind hne, isTarget_of_kind hn]

/-- The counterpart of a node reports what the node reports. -/
theorem Amendment.reported_mirrored (A : Amendment source tree l fixed) (h : Survives source tree above n) :
    reported fixed (mirrored source l ⟨n, above⟩) = (reported source ⟨n, above⟩).map l.diagnostic := by
  simp only [reported, reference?, A.isTarget_mirrored h]
  by_cases ht : isTarget source ⟨n, above⟩ = true
  · have hn : n.kind = "constant" := by
      simp only [isTarget, Bool.and_eq_true, beq_iff_eq] at ht
      exact ht.1.1
    rw [if_pos ht, if_pos ht, A.referenceAt_mirrored h]
    simp only [Option.map_some]
    exact congrArg some (diagnostic_moved (amend_extent (correction?_referenceAt hn)) (A.callOn_moved h.referenceAt))
  · rw [if_neg ht, if_neg ht]
    rfl

theorem Amendment.reported_survivor (A : Amendment source tree l fixed) (h : Survives source tree above n) :
    (reported fixed (mirrored source l ⟨n, above⟩)).toList = l.remaining (reported source ⟨n, above⟩).toList := by
  rw [A.reported_mirrored h]
  cases hr : reported source ⟨n, above⟩ with
  | none => rfl
  | some d =>
    have hd : d.correctable = false := by
      rw [correctable_of_reported hr, h.editAt_eq A.grammatical]
      rfl
    simp [Layout.remaining, hd]

theorem remaining_corrected {c : Cursor} {e : Edit} (h : editAt source c = some e) :
    l.remaining (reported source c).toList = [] := by
  cases hr : reported source c with
  | none => rfl
  | some d =>
    have hd : d.correctable = true := by
      rw [correctable_of_reported hr, h]
      rfl
    simp [Layout.remaining, hd]

/-- What is said of siblings one by one holds of them as a list. -/
theorem gathers_amends {p p' : Node} {up : List (Node × Nat)} {i i' : Nat} {ns : List Node}
    (h : ∀ j c, ns[j]? = some c → gather (reported fixed) ((p', i' + j) :: up) (amend source l ((p, i + j) :: above) c) =
      l.remaining (gather (reported source) ((p, i + j) :: above) c)) :
    gathers (reported fixed) p' up i' (amends source l p above i ns) =
      l.remaining (gathers (reported source) p above i ns) := by
  induction ns generalizing i i' with
  | nil => rfl
  | cons n ns ih =>
    rw [amends, gathers_cons, gathers_cons, Layout.remaining_append]
    have hn := h 0 n rfl
    have hns := @ih (i + 1) (i' + 1) fun j c hj => by
      rw [show i + 1 + j = i + (j + 1) by omega, show i' + 1 + j = i' + (j + 1) by omega]
      exact h (j + 1) c hj
    rw [Nat.add_zero, Nat.add_zero] at hn
    rw [hn, hns]

/-- What is reported below the children that a corrected call keeps, if it is so for each of them. -/
theorem Cut.gathers_amend {e : Edit} {first last : Nat} {receiver selector : Node} {size : Nat}
    (c : Cut source n e first last receiver selector) (hg : n.Grammatical size)
    (hcor : correction? source ⟨n, above⟩ = some e)
    (h : ∀ j m, n.children[j]? = some m → Kept source ⟨n, above⟩ j →
      gather (reported fixed) ((amend source l above n, shift source ⟨n, above⟩ j) :: mirror source l above)
        (amend source l ((n, j) :: above) m) = l.remaining (gather (reported source) ((n, j) :: above) m)) :
    gathers (reported fixed) (amend source l above n) (mirror source l above) 0 (amend source l above n).children =
      l.remaining (gathers (reported source) n above 0 n.children) := by
  obtain ⟨x, hx, hgathers⟩ := c.gathers_eq atTargets_reported hg hcor
  have hbefore := c.before
  rw [hgathers, Layout.remaining_append, Layout.remaining_append, remaining_corrected hx, List.nil_append]
  have hamend := c.amend_eq (l := l) hcor
  rcases replaced_cases l n (amends source l n above 0 n.children) ⟨e, first, last, receiver, selector⟩ with
    ⟨hfront, hback, heq⟩ | heq
  · -- nothing is left but the token, which is no constant
    rw [amends_take] at hfront
    rw [amends_drop] at hback
    have hchildren : (amend source l above n).children = [] := by
      rw [hamend, heq]
      rfl
    rw [hchildren, amends_eq_nil hfront, amends_eq_nil hback]
    rfl
  · have hchildren : (amend source l above n).children = amends source l n above 0 (n.children.take first) ++
        token l ⟨e, first, last, receiver, selector⟩ ::
          amends source l n above (last + 1) (n.children.drop (last + 1)) := by
      rw [hamend, heq, amends_take, amends_drop, Nat.zero_add]
    have htoken : ∀ i, gather (reported fixed) ((amend source l above n, i) :: mirror source l above)
        (token l ⟨e, first, last, receiver, selector⟩) = [] := by
      intro i
      rw [gather_leaf _ rfl, atTargets_reported _ (isTarget_of_kind (by simp [token]))]
      rfl
    rw [hchildren, gathers_append, gathers_cons, htoken, List.nil_append, amends_length,
      length_take_of_getElem? c.receiverAt, Nat.zero_add]
    congr 1
    · refine gathers_amends fun j m hj => ?_
      obtain ⟨hlt, hj⟩ := getElem?_take_eq_some hj
      have hm := h j m hj ((c.kept_iff hcor).2 (Or.inl hlt))
      rw [c.shift_eq hcor, if_pos hlt] at hm
      rwa [Nat.zero_add]
    · refine gathers_amends fun j m hj => ?_
      rw [List.getElem?_drop] at hj
      have hm := h (last + 1 + j) m hj ((c.kept_iff hcor).2 (Or.inr (by omega)))
      rw [c.shift_eq hcor, if_neg (by omega)] at hm
      rwa [show last + 1 + j - (last - first) = first + 1 + j by omega] at hm

/-- What is reported below the counterpart of a node is what remains of what is reported below the node. -/
theorem Amendment.gather_amend (A : Amendment source tree l fixed) (h : Survives source tree above n) :
    gather (reported fixed) (mirror source l above) (amend source l above n) =
      l.remaining (gather (reported source) above n) := by
  induction n using Node.induct generalizing above with
  | step n ih =>
    have hchild : ∀ j c, n.children[j]? = some c → Kept source ⟨n, above⟩ j →
        gather (reported fixed) ((amend source l above n, shift source ⟨n, above⟩ j) :: mirror source l above)
          (amend source l ((n, j) :: above) c) = l.remaining (gather (reported source) ((n, j) :: above) c) :=
      fun j c hj hk => ih c (List.mem_of_getElem? hj) (.child h hj hk)
    have hself := A.reported_survivor h
    rw [mirrored] at hself
    rw [gather_eq, gather_eq, Layout.remaining_append, hself]
    congr 1
    cases hcor : correction? source ⟨n, above⟩ with
    | none =>
      have hchildren : (amend source l above n).children = amends source l n above 0 n.children := by
        rw [amend_plain hcor]
      rw [hchildren]
      refine gathers_amends fun j c hj => ?_
      have hc := hchild j c hj (kept_of_plain hcor j)
      rwa [shift_plain hcor, ← Nat.zero_add j] at hc
    | some e =>
      have hng := h.grammatical A.grammatical
      obtain ⟨first, last, receiver, selector, hcut⟩ := cut_of_correction? hng.arranged hcor
      exact hcut.gathers_amend hng hcor hchild

/-- Where nothing that is reported is correctable, there is nothing to correct. -/
theorem edits_eq_nil {source : Bytes} {tree : Node}
    (h : ∀ d ∈ (checkTree source tree).diagnostics, d.correctable = false) : (checkTree source tree).edits = [] := by
  rw [checkTree_edits, gather, List.filterMap_eq_nil_iff]
  intro c hc
  rw [checkTree_diagnostics] at h
  cases hr : reported source c with
  | none =>
    have hnone : reference? source c = none := by simpa [reported] using hr
    simp [editAt, hnone]
  | some d =>
    have hd := h d (List.mem_filterMap.2 ⟨c, hc, hr⟩)
    rw [correctable_of_reported hr] at hd
    simpa using hd

/-- Correction removes exactly the correctable offenses: the corrected source reports the others, in order and
at their moved places, and has nothing left to correct. -/
theorem check_corrected (source : Bytes) (tree : Node) (place : Int → Point → Point)
    (hg : tree.Grammatical source.length)
    (hd : ∀ n ∈ tree.nodes, n.kind = "call" ∨ n.kind = "scope_resolution" → n.FieldsDistinct)
    (hp : PlainArguments source tree) :
    ∃ fixed, Edit.apply source (checkTree source tree).edits = .ok fixed ∧
      (checkTree fixed (correctedTree source tree place)).edits = [] ∧
      (checkTree fixed (correctedTree source tree place)).diagnostics =
        ((checkTree source tree).diagnostics.filter fun d => !d.correctable).map
          (layoutOf source tree place).diagnostic := by
  have A : Amendment source tree (layoutOf source tree place)
      ((checkTree source tree).edits.foldr Edit.splice source) :=
    ⟨hg, fun n hn hk => hd n hn (Or.inl hk), hp, rfl, rfl⟩
  have hdiagnostics := A.gather_amend .root
  rw [mirror, ← correctedTree, ← checkTree_diagnostics, ← checkTree_diagnostics] at hdiagnostics
  refine ⟨_, Edit.apply_of_chain (chain_checkTree hg), edits_eq_nil ?_, hdiagnostics⟩
  rw [hdiagnostics]
  intro d hd
  simp only [Layout.remaining, List.mem_map, List.mem_filter] at hd
  obtain ⟨d, ⟨-, hd⟩, rfl⟩ := hd
  simpa [Layout.diagnostic] using hd

/-- A corrected call in the arguments of a call that stays, in the block of a corrected call. -/
def mixedSource : Bytes := Bytes.ofString "Timecop.freeze \x7b Timecop.travel(Timecop.return) \x7d"

def mixedTree : Node :=
  lineNode "program" 0 49 true none
    [sendAt 0 49 none
      [lineNode "block" 15 49 true (some "block")
        [lineNode "\x7b" 15 16 false none [],
         sendAt 17 47 none
           [lineNode "argument_list" 31 47 true (some "arguments")
             [lineNode "(" 31 32 false none [], sendAt 32 46 none [], lineNode ")" 46 47 false none []]],
         lineNode "\x7d" 48 49 false none []]]]

/-- Every offset on the first line. -/
def onLine (offset : Int) (_ : Point) : Point := ⟨0, offset⟩

theorem check_corrected_mixed : mixedTree.Grammatical mixedSource.length ∧
    (∀ n ∈ mixedTree.nodes, n.kind = "call" ∨ n.kind = "scope_resolution" → n.FieldsDistinct) ∧
    PlainArguments mixedSource mixedTree ∧
    (checkTree mixedSource mixedTree).edits = [⟨0, 14, "freeze_time"⟩, ⟨32, 46, "travel_back"⟩] ∧
    ∃ fixed, Edit.apply mixedSource (checkTree mixedSource mixedTree).edits = .ok fixed ∧
      (checkTree fixed (correctedTree mixedSource mixedTree onLine)).edits = [] ∧
      (checkTree fixed (correctedTree mixedSource mixedTree onLine)).diagnostics =
        [⟨⟨14, 41, 1, 15, 1, 42⟩, Kind.travelCall.message, .travelCall, rule, false⟩] := by
  have hg : mixedTree.Grammatical mixedSource.length := by decide +kernel
  have hd : ∀ n ∈ mixedTree.nodes, n.kind = "call" ∨ n.kind = "scope_resolution" → n.FieldsDistinct := by decide +kernel
  have hp : PlainArguments mixedSource mixedTree := by decide +kernel
  obtain ⟨fixed, happly, hedits, hdiagnostics⟩ := check_corrected mixedSource mixedTree onLine hg hd hp
  refine ⟨hg, hd, hp, by decide +kernel, fixed, happly, hedits, ?_⟩
  rw [hdiagnostics]
  decide +kernel

/-- `Timecop.freeze Timecop.return`, with the second call itself for the arguments of the first. -/
def commandSource : Bytes := Bytes.ofString "Timecop.freeze Timecop.return"

def commandTree : Node := sendAt 0 29 none [sendAt 15 29 (some "arguments") []]

/-- A corrected call that stands for the arguments of another call no longer counts as an argument, and the
other call becomes correctable. -/
theorem corrected_arguments_uncounted : commandTree.Grammatical commandSource.length ∧
    (∀ n ∈ commandTree.nodes, n.kind = "call" ∨ n.kind = "scope_resolution" → n.FieldsDistinct) ∧
    Edit.apply commandSource (checkTree commandSource commandTree).edits =
      .ok (Bytes.ofString "Timecop.freeze travel_back") ∧
    (checkTree (Bytes.ofString "Timecop.freeze travel_back") (correctedTree commandSource commandTree onLine)).edits =
      [⟨0, 14, "freeze_time"⟩] := by
  have hg : commandTree.Grammatical commandSource.length := by decide +kernel
  have htext : (checkTree commandSource commandTree).edits.foldr Edit.splice commandSource =
      Bytes.ofString "Timecop.freeze travel_back" := by decide +kernel
  refine ⟨hg, by decide +kernel, ?_, by decide +kernel⟩
  rw [Edit.apply_of_chain (chain_checkTree hg), htext]

end Offense

end TimeLint
