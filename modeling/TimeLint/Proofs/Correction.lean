import TimeLint.Offense.Diagnostic
import TimeLint.Proofs.Grammar

/-! Corrections read from the call down. An edit is made for a constant, found from below; it belongs to
the one call whose receiver is that constant or the `::Name` around it. -/

namespace TimeLint

namespace Cursor

/-- The cursor on child number `i`. -/
def childAt? (c : Cursor) (i : Nat) : Option Cursor :=
  c.node.children[i]?.map fun n => ⟨n, (c.node, i) :: c.above⟩

/-- The cursor on the first child in a field. -/
def inField? (name : String) (c : Cursor) : Option Cursor := (c.node.childIndex? name).bind c.childAt?

/-- The node stands where the way up says it does. -/
def Attached (c : Cursor) : Prop := ∀ p ∈ c.above.head?, p.1.children[p.2]? = some c.node

theorem attached_root (n : Node) : Attached ⟨n, []⟩ := by simp [Attached]

theorem attached_child {p n : Node} {i : Nat} {above : List (Node × Nat)} (h : p.children[i]? = some n) :
    Attached ⟨n, (p, i) :: above⟩ := by
  simpa [Attached] using h

theorem fills_cons {name : String} {n p : Node} {i : Nat} {above : List (Node × Nat)} :
    fills name ⟨n, (p, i) :: above⟩ = true ↔ p.childIndex? name = some i := by
  simp [fills]

theorem inField?_eq_some {name : String} {p n : Node} {i : Nat} {above : List (Node × Nat)}
    (hi : p.childIndex? name = some i) (hn : p.children[i]? = some n) :
    inField? name ⟨p, above⟩ = some ⟨n, (p, i) :: above⟩ := by
  simp [inField?, hi, childAt?, hn]

theorem of_inField? {name : String} {p : Node} {above : List (Node × Nat)} {c : Cursor}
    (h : inField? name ⟨p, above⟩ = some c) :
    ∃ i n, p.childIndex? name = some i ∧ p.children[i]? = some n ∧ c = ⟨n, (p, i) :: above⟩ := by
  simp only [inField?, childAt?, Option.bind_eq_some_iff, Option.map_eq_some_iff] at h
  obtain ⟨i, hi, n, hn, rfl⟩ := h
  exact ⟨i, n, hi, hn, rfl⟩

theorem child?_eq_inField? (name : String) (c : Cursor) : c.node.child? name = (c.inField? name).map (·.node) := by
  rw [Node.child?_eq_getElem?, inField?]
  cases c.node.childIndex? name with
  | none => rfl
  | some i =>
    simp only [Option.bind_some, childAt?, Option.map_map]
    exact (congrFun Option.map_id _).symm

end Cursor

namespace Offense

variable {source : Bytes}

/-- The edit made for the reference at `r`. -/
def editOn (source : Bytes) (r : Cursor) : Option Edit := Reference.edit ⟨r.node, callOn source r⟩

/-- The edit made for the constant at `c`. -/
def editAt (source : Bytes) (c : Cursor) : Option Edit := (reference? source c).bind Reference.edit

theorem checkTree_edits (source : Bytes) (tree : Node) :
    (checkTree source tree).edits = Cursor.gather (editAt source) [] tree := by
  simp only [checkTree, references, Cursor.root, Cursor.walk_node, List.filterMap_filterMap]
  rfl

/-- What is reported for the constant at `c`. -/
def reported (source : Bytes) (c : Cursor) : Option Diagnostic := (reference? source c).map (·.diagnostic)

theorem checkTree_diagnostics (source : Bytes) (tree : Node) :
    (checkTree source tree).diagnostics = Cursor.gather (reported source) [] tree := by
  simp only [checkTree, references, Cursor.root, Cursor.walk_node, List.map_filterMap]
  rfl

theorem editAt_eq (c : Cursor) :
    editAt source c = if isTarget source c then editOn source (referenceAt c) else none := by
  unfold editAt reference? editOn
  split <;> rfl

/-- The constant that a call is made on: the receiver, or the name in a receiver `::Name`. -/
def subject? (p : Cursor) : Option Cursor :=
  if p.node.kind == "call" then
    (p.inField? "receiver").bind fun r =>
      if r.node.kind == "scope_resolution" then r.inField? "name" else some r
  else none

/-- The edit that corrects the call at `p`. -/
def correction? (source : Bytes) (p : Cursor) : Option Edit := (subject? p).bind (editAt source)

/-- What an edit says about the call it corrects. -/
structure Corrects (source : Bytes) (p : Node) (e : Edit) (i : Nat) (r selector : Node) : Prop where
  isCall : p.kind = "call"
  receiver : p.childIndex? "receiver" = some i
  method : p.child? "method" = some selector
  explicit : selector.kind ≠ "argument_list"
  name : selector.text source = "freeze" ∨ selector.text source = "return"
  start : e.start = r.start
  stop : e.stop = selector.stop
  token : e.replacement = freezeTime ∨ e.replacement = travelBack

theorem append_equals_ne {s t : String} (h : t.toList.getLast? ≠ some '=') : s ++ "=" ≠ t := by
  rintro rfl
  simp at h

theorem replacement?_eq_some_iff {s : Shape} {token : String} : (classify s).2.replacement? = some token ↔
    (s.method = some "freeze" ∧ s.argumentCount = 0 ∧ token = freezeTime) ∨
      (s.method = some "return" ∧ s.hasBlock = false ∧ token = travelBack) := by
  unfold classify
  split
  · rename_i h
    by_cases hc : s.argumentCount = 0 <;> simp [h, hc, Correction.replacement?, eq_comm (a := token)]
  · rename_i h
    cases hb : s.hasBlock <;> simp [h, Correction.replacement?, eq_comm (a := token)]
  · rename_i h
    simp [h, Correction.replacement?]
  · rename_i h1 h2 _
    constructor
    · intro h
      simp [Correction.replacement?] at h
    · rintro (⟨h, -⟩ | ⟨h, -⟩)
      · exact absurd h h1
      · exact absurd h h2

/-- What is reported as correctable is what has an edit. -/
theorem correctable_eq (r : Reference) : r.diagnostic.correctable = r.edit.isSome := by
  simp only [Reference.diagnostic, Reference.edit, Reference.editFor]
  cases hcall : r.call with
  | none => simp [Reference.shape, hcall, classify, Correction.replacement?]
  | some call => cases (classify r.shape).2 <;> simp [Correction.replacement?]

theorem correctable_of_reported {c : Cursor} {d : Diagnostic} (h : reported source c = some d) :
    d.correctable = (editAt source c).isSome := by
  obtain ⟨r, hr, rfl⟩ := Option.map_eq_some_iff.1 h
  rw [correctable_eq, editAt, hr]
  rfl

/-- A correctable call sends `freeze` or `return`. -/
theorem method_of_replacement {s : Shape} {token : String} (h : (classify s).2.replacement? = some token) :
    (s.method = some "freeze" ∨ s.method = some "return") ∧ (token = freezeTime ∨ token = travelBack) := by
  rcases replacement?_eq_some_iff.1 h with ⟨hm, -, ht⟩ | ⟨hm, -, ht⟩
  · exact ⟨Or.inl hm, Or.inl ht⟩
  · exact ⟨Or.inr hm, Or.inr ht⟩

theorem callOn_eq_some {r : Cursor} {call : Call} (h : callOn source r = some call) :
    ∃ p i above selector, r.above = (p, i) :: above ∧ p.kind = "call" ∧ p.childIndex? "receiver" = some i ∧
      p.child? "method" = some selector ∧ isSend (operator? p selector) = true ∧
      call = callWith source ⟨p, above⟩ selector := by
  obtain ⟨n, above⟩ := r
  cases above with
  | nil => simp [callOn, Cursor.parent?] at h
  | cons x above =>
    obtain ⟨p, i⟩ := x
    simp only [callOn, Cursor.parent?] at h
    split at h
    · rename_i hp
      simp only [Bool.and_eq_true, beq_iff_eq, Cursor.fills_cons] at hp
      split at h
      · cases h
      · rename_i selector hs
        split at h
        · rename_i ho
          exact ⟨p, i, above, selector, rfl, hp.1, hp.2, hs, ho, by simpa using h.symm⟩
        · cases h
    · cases h

/-- A method whose name is neither the implicit one nor that of a writer is what the selector says. -/
theorem method_callWith_eq_iff {p : Cursor} {selector : Node} {name : String} (hcall : name ≠ "call")
    (hend : name.toList.getLast? ≠ some '=') : (callWith source p selector).method = name ↔
      selector.kind ≠ "argument_list" ∧ isAssigned p = false ∧ selector.text source = name := by
  cases ha : isAssigned p with
  | true =>
    simp only [callWith, ha, if_true, Bool.true_eq_false, false_and, and_false, iff_false]
    exact append_equals_ne hend
  | false =>
    by_cases hk : selector.kind = "argument_list"
    · simp [callWith, ha, hk, hcall.symm]
    · simp [callWith, ha, hk]

/-- The method of a call that is named `freeze` or `return` is its selector's text. -/
theorem method_callWith {p : Cursor} {selector : Node} {name : String} (hn : name = "freeze" ∨ name = "return")
    (h : (callWith source p selector).method = name) :
    selector.kind ≠ "argument_list" ∧ isAssigned p = false ∧ selector.text source = name := by
  have hplain : name ≠ "call" ∧ name.toList.getLast? ≠ some '=' := by
    rcases hn with rfl | rfl <;> decide
  exact (method_callWith_eq_iff hplain.1 hplain.2).1 h

theorem editOn_eq_some {r : Cursor} {e : Edit} (h : editOn source r = some e) :
    ∃ p i above selector, r.above = (p, i) :: above ∧ Corrects source p e i r.node selector := by
  unfold editOn Reference.edit Reference.editFor at h
  split at h
  · rename_i token call htoken hcall
    replace hcall : callOn source r = some call := hcall
    rw [hcall] at htoken
    obtain ⟨hm, ht⟩ := method_of_replacement htoken
    obtain ⟨p, i, above, selector, ha, hk, hr, hs, -, rfl⟩ := callOn_eq_some hcall
    simp only [Reference.shape, Option.some.injEq] at hm
    obtain ⟨name, hn, hname⟩ : ∃ name, (name = "freeze" ∨ name = "return") ∧
        (callWith source ⟨p, above⟩ selector).method = name := ⟨_, hm, rfl⟩
    obtain ⟨hkind, -, htext⟩ := method_callWith hn hname
    obtain rfl : _ = e := by simpa using h
    exact ⟨p, i, above, selector, ha, hk, hr, hs, hkind, htext ▸ hn, rfl, rfl, ht⟩
  · cases h

theorem editAt_constant {c : Cursor} {e : Edit} (h : editAt source c = some e) :
    isTarget source c = true ∧ c.node.kind = "constant" ∧ editOn source (referenceAt c) = some e := by
  rw [editAt_eq] at h
  split at h
  · rename_i ht
    refine ⟨ht, ?_, h⟩
    simp only [isTarget, Bool.and_eq_true, beq_iff_eq] at ht
    exact ht.1.1
  · cases h

theorem editAt_root (n : Node) : editAt source ⟨n, []⟩ = none := by
  rw [editAt_eq]
  simp [referenceAt, Cursor.parent?, editOn, Reference.edit, Reference.editFor, callOn]

theorem referenceAt_name {c n : Node} {j : Nat} {above : List (Node × Nat)} (hk : n.kind = "scope_resolution")
    (hj : n.childIndex? "name" = some j) : referenceAt ⟨c, (n, j) :: above⟩ = ⟨n, above⟩ := by
  simp [referenceAt, Cursor.parent?, hk, Cursor.fills_cons.2 hj]

theorem referenceAt_other {c n : Node} {j : Nat} {above : List (Node × Nat)}
    (h : ¬ (n.kind = "scope_resolution" ∧ n.childIndex? "name" = some j)) :
    referenceAt ⟨c, (n, j) :: above⟩ = ⟨c, (n, j) :: above⟩ := by
  have hf : (n.kind == "scope_resolution" && Cursor.fills "name" ⟨c, (n, j) :: above⟩) = false := by
    rw [← Bool.not_eq_true, Bool.and_eq_true, beq_iff_eq, Cursor.fills_cons]
    exact h
  simp [referenceAt, Cursor.parent?, hf]

/-- The name of a target `::Name` has no scope before it. -/
theorem scope_of_isTarget {c n : Node} {j : Nat} {above : List (Node × Nat)}
    (h : isTarget source ⟨c, (n, j) :: above⟩ = true) (hk : n.kind = "scope_resolution")
    (hj : n.childIndex? "name" = some j) : n.child? "scope" = none := by
  simp only [isTarget, standsFree, Cursor.parent?, isAssignment, hk, Bool.and_eq_true] at h
  simpa [Cursor.fills_cons.2 hj] using h.2

theorem isTarget_of_kind {c : Cursor} (h : c.node.kind ≠ "constant") : isTarget source c = false := by
  simp [isTarget, h]

/-- A constant that names a method is no reference. -/
theorem isTarget_method {c n : Node} {j : Nat} {above : List (Node × Nat)} (hk : n.kind = "call")
    (hj : n.childIndex? "method" = some j) : isTarget source ⟨c, (n, j) :: above⟩ = false := by
  simp [isTarget, standsFree, Cursor.parent?, hk, Cursor.fills_cons.2 hj]

/-- The edit that the node below this way up takes part in as the receiver of a corrected call. -/
def carried? (source : Bytes) : List (Node × Nat) → Option Edit
  | [] => none
  | (p, i) :: above => if p.childIndex? "receiver" = some i then correction? source ⟨p, above⟩ else none

theorem carried?_receiver {p : Node} {i : Nat} {above : List (Node × Nat)}
    (h : p.childIndex? "receiver" = some i) : carried? source ((p, i) :: above) = correction? source ⟨p, above⟩ := by
  simp [carried?, h]

theorem carried?_other {p : Node} {i : Nat} {above : List (Node × Nat)}
    (h : p.childIndex? "receiver" ≠ some i) : carried? source ((p, i) :: above) = none := by
  simp [carried?, h]

theorem isCall_of_correction? {p : Cursor} {e : Edit} (h : correction? source p = some e) : p.node.kind = "call" := by
  by_contra hk
  simp [correction?, subject?, hk] at h

theorem receiver_of_correction? {p : Node} {above : List (Node × Nat)} {e : Edit}
    (h : correction? source ⟨p, above⟩ = some e) :
    ∃ i n, p.childIndex? "receiver" = some i ∧ p.children[i]? = some n := by
  cases hi : p.childIndex? "receiver" with
  | none => simp [correction?, subject?, Cursor.inField?, hi] at h
  | some i =>
    obtain ⟨n, hn, -, -⟩ := Node.childIndex?_eq_some_iff.1 hi
    exact ⟨i, n, rfl, hn⟩

theorem correction?_of_kind {n : Node} {above : List (Node × Nat)} (h : n.kind ≠ "call") :
    correction? source ⟨n, above⟩ = none := by
  simp [correction?, subject?, h]

theorem correction?_leaf {n : Node} {above : List (Node × Nat)} (h : n.children = []) :
    correction? source ⟨n, above⟩ = none := by
  simp [correction?, subject?, Cursor.inField?, Node.childIndex?, h]

theorem carried?_eq_some {p : Node} {i : Nat} {above : List (Node × Nat)} {e : Edit}
    (h : carried? source ((p, i) :: above) = some e) :
    p.childIndex? "receiver" = some i ∧ p.kind = "call" ∧ correction? source ⟨p, above⟩ = some e := by
  by_cases hr : p.childIndex? "receiver" = some i
  · rw [carried?_receiver hr] at h
    exact ⟨hr, isCall_of_correction? h, h⟩
  · rw [carried?_other hr] at h
    cases h

/-- A constant that is corrected is the subject of a call: of the node above it, or of the one above its `::Name`. -/
theorem subject_of_editAt {c n : Node} {j : Nat} {above : List (Node × Nat)} {e : Edit}
    (hn : Cursor.Attached ⟨n, above⟩) (hc : n.children[j]? = some c)
    (h : editAt source ⟨c, (n, j) :: above⟩ = some e) :
    (n.childIndex? "receiver" = some j ∧ subject? ⟨n, above⟩ = some ⟨c, (n, j) :: above⟩) ∨
      (n.kind = "scope_resolution" ∧ n.childIndex? "name" = some j ∧ ∃ q k rest, above = (q, k) :: rest ∧
        q.childIndex? "receiver" = some k ∧ subject? ⟨q, rest⟩ = some ⟨c, (n, j) :: above⟩) := by
  obtain ⟨-, hconst, hon⟩ := editAt_constant h
  by_cases hname : n.kind = "scope_resolution" ∧ n.childIndex? "name" = some j
  · right
    rw [referenceAt_name hname.1 hname.2] at hon
    obtain ⟨q, k, rest, selector, rfl, hq⟩ := editOn_eq_some hon
    have hk : q.children[k]? = some n := by simpa [Cursor.Attached] using hn
    refine ⟨hname.1, hname.2, q, k, rest, rfl, hq.receiver, ?_⟩
    simp [subject?, hq.isCall, Cursor.inField?_eq_some hq.receiver hk, hname.1, Cursor.inField?_eq_some hname.2 hc]
  · left
    rw [referenceAt_other hname] at hon
    obtain ⟨p, i, rest, selector, ha, hp⟩ := editOn_eq_some hon
    obtain ⟨⟨rfl, rfl⟩, rfl⟩ : (n = p ∧ j = i) ∧ above = rest := by simpa using ha
    have hconst : c.kind = "constant" := hconst
    refine ⟨hp.receiver, ?_⟩
    simp [subject?, hp.isCall, Cursor.inField?_eq_some hp.receiver hc, hconst]

/-- An edit for a child is made for the receiver of a corrected call: the child or the node itself. -/
theorem carried?_of_editAt {c n : Node} {j : Nat} {above : List (Node × Nat)} {e : Edit}
    (hn : Cursor.Attached ⟨n, above⟩) (hc : n.children[j]? = some c)
    (h : editAt source ⟨c, (n, j) :: above⟩ = some e) :
    carried? source ((n, j) :: above) = some e ∨
      (n.kind = "scope_resolution" ∧ n.childIndex? "name" = some j ∧ carried? source above = some e) := by
  rcases subject_of_editAt hn hc h with ⟨hr, hs⟩ | ⟨hk, hj, q, k, rest, rfl, hr, hs⟩
  · left
    rw [carried?_receiver hr, correction?, hs]
    exact h
  · refine Or.inr ⟨hk, hj, ?_⟩
    rw [carried?_receiver hr, correction?, hs]
    exact h

theorem editAt_child {c n : Node} {j : Nat} {above : List (Node × Nat)} (hn : Cursor.Attached ⟨n, above⟩)
    (hc : n.children[j]? = some c) (hout : carried? source above = none) (hin : carried? source ((n, j) :: above) = none) :
    editAt source ⟨c, (n, j) :: above⟩ = none := by
  by_contra hne
  obtain ⟨e, he⟩ := Option.ne_none_iff_exists'.1 hne
  rcases carried?_of_editAt hn hc he with h | ⟨-, -, h⟩
  · simp [h] at hin
  · simp [h] at hout

/-- The receiver of a corrected call is the constant itself, or `::Name` with the constant as its name. -/
theorem editAt_of_carried? {n p : Node} {i : Nat} {above : List (Node × Nat)} {e : Edit}
    (hn : p.children[i]? = some n) (h : carried? source ((p, i) :: above) = some e) :
    editAt source ⟨n, (p, i) :: above⟩ = some e ∨
      (n.kind = "scope_resolution" ∧ ∃ j c, n.childIndex? "name" = some j ∧ n.children[j]? = some c ∧
        editAt source ⟨c, (n, j) :: (p, i) :: above⟩ = some e) := by
  obtain ⟨hr, hk, h⟩ := carried?_eq_some h
  simp only [correction?, subject?, hk, beq_self_eq_true, if_true, Cursor.inField?_eq_some hr hn, Option.bind_some] at h
  split at h
  · rename_i hs
    obtain ⟨_, hname, he⟩ := Option.bind_eq_some_iff.1 h
    obtain ⟨j, c, hj, hc, rfl⟩ := Cursor.of_inField? hname
    exact Or.inr ⟨by simpa using hs, j, c, hj, hc, he⟩
  · exact Or.inl h

/-- The edit of a corrected call goes from its receiver to its selector. -/
theorem corrects_of_carried? {n p : Node} {i : Nat} {above : List (Node × Nat)} {e : Edit}
    (hn : p.children[i]? = some n) (h : carried? source ((p, i) :: above) = some e) :
    ∃ selector, Corrects source p e i n selector := by
  have hon : editOn source ⟨n, (p, i) :: above⟩ = some e := by
    rcases editAt_of_carried? hn h with he | ⟨hk, j, c, hj, -, he⟩
    · obtain ⟨-, hconst, hon⟩ := editAt_constant he
      rwa [referenceAt_other (by simp [(carried?_eq_some h).2.1])] at hon
    · obtain ⟨-, -, hon⟩ := editAt_constant he
      rwa [referenceAt_name hk hj] at hon
  obtain ⟨p', i', rest, selector, ha, hp⟩ := editOn_eq_some hon
  obtain ⟨⟨rfl, rfl⟩, -⟩ : (p = p' ∧ i = i') ∧ above = rest := by simpa using ha
  exact ⟨selector, hp⟩

end Offense

end TimeLint
