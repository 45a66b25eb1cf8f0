import Mathlib.Data.List.Nodup
import TimeLint.Proofs.Visits

/-! Corrections as the calls ask for them. A call asks for an edit by what its own children are and by what
stands above it; the check starts from constants and looks up. Each constant that is corrected is the
subject of one visited call, and each call has one subject, so both ways give the same edits. -/

namespace TimeLint.Offense

open Cursor

variable {source : Bytes} {e : Edit} {k : Cursor}

/-- The node stands for the target: it is the constant, or `::` with the constant as its name. -/
inductive StandsForTarget (source : Bytes) : Node → Prop
  | constant {n : Node} (kind : n.kind = "constant") (text : n.text source = "Timecop") : StandsForTarget source n
  | rooted {n name : Node} (kind : n.kind = "scope_resolution") (noScope : n.child? "scope" = none)
      (child : n.child? "name" = some name) (constant : name.kind = "constant") (text : name.text source = "Timecop") :
      StandsForTarget source n

/-- The call at `k` is a plain send of a method of that name to the target. -/
structure Sends (source : Bytes) (k : Cursor) (receiver method : Node) (name : String) : Prop where
  isCall : k.node.kind = "call"
  hasReceiver : k.node.child? "receiver" = some receiver
  toTarget : StandsForTarget source receiver
  hasMethod : k.node.child? "method" = some method
  explicit : method.kind ≠ "argument_list"
  operator : ∃ o ∈ (k.node.children.filter fun n => !n.named && n.stop ≤ method.start).getLast?,
    o.kind = "." ∨ o.kind = "::"
  unassigned : ∀ p i, k.above.head? = some (p, i) → p.kind ≠ "left_assignment_list" ∧
    (p.kind = "assignment" ∨ p.kind = "operator_assignment" → p.childIndex? "left" ≠ some i)
  text : method.text source = name

/-- The edit that the call at `k` asks for. -/
inductive Asks (source : Bytes) (k : Cursor) : Edit → Prop
  | freeze {receiver method : Node} (sends : Sends source k receiver method "freeze")
      (bare : ∀ list, k.node.child? "arguments" = some list → ∀ n ∈ list.children, n.named = true → n.kind = "comment") :
      Asks source k ⟨receiver.start, method.stop, "freeze_time"⟩
  | back {receiver method : Node} (sends : Sends source k receiver method "return")
      (noBlock : k.node.child? "block" = none) : Asks source k ⟨receiver.start, method.stop, "travel_back"⟩

theorem Asks.isCall (h : Asks source k e) : k.node.kind = "call" := by
  cases h with
  | freeze sends _ => exact sends.isCall
  | back sends _ => exact sends.isCall

theorem edit_eq_some_iff {r : Reference} : r.edit = some e ↔
    ∃ call token, r.call = some call ∧ (classify r.shape).2.replacement? = some token ∧
      e = ⟨r.node.start, call.selector.stop, token⟩ := by
  unfold Reference.edit Reference.editFor
  split
  · rename_i token call ht hc
    simp [hc, ht, eq_comm]
  · rename_i h
    constructor
    · intro h'
      cases h'
    · rintro ⟨call, token, hc, ht, -⟩
      exact absurd hc (h token call ht)

theorem argumentCount_eq_zero_iff {arguments : Option Node} : argumentCount arguments = 0 ↔
    ∀ list, arguments = some list → ∀ n ∈ list.children, n.named = true → n.kind = "comment" := by
  cases arguments with
  | none => simp [argumentCount]
  | some list =>
    simp only [argumentCount, Node.namedChildren, List.length_eq_zero_iff, List.filter_eq_nil_iff, List.mem_filter,
      Option.some.injEq, forall_eq']
    simp

theorem isSend_operator?_iff {call method : Node} : isSend (operator? call method) = true ↔
    ∃ o ∈ (call.children.filter fun n => !n.named && n.stop ≤ method.start).getLast?, o.kind = "." ∨ o.kind = "::" := by
  unfold operator?
  rw [List.getLast?_map]
  cases (call.children.filter fun n => !n.named && n.stop ≤ method.start).getLast? <;> simp [isSend]

theorem isAssigned_eq_false_iff : isAssigned k = false ↔
    ∀ p i, k.above.head? = some (p, i) → p.kind ≠ "left_assignment_list" ∧
      (p.kind = "assignment" ∨ p.kind = "operator_assignment" → p.childIndex? "left" ≠ some i) := by
  obtain ⟨n, above⟩ := k
  cases above with
  | nil => simp [isAssigned, parent?]
  | cons x above =>
    obtain ⟨p, i⟩ := x
    simp [isAssigned, parent?, isAssignment, fills]

theorem callOn_eq_some_iff {n p : Node} {i : Nat} {above : List (Node × Nat)} {call : Call} (hk : p.kind = "call")
    (hi : p.childIndex? "receiver" = some i) : callOn source ⟨n, (p, i) :: above⟩ = some call ↔
      ∃ method, p.child? "method" = some method ∧ isSend (operator? p method) = true ∧
        call = callWith source ⟨p, above⟩ method := by
  have hreceiver : (p.kind == "call" && fills "receiver" ⟨n, (p, i) :: above⟩) = true := by
    simp [hk, fills_cons.2 hi]
  simp only [callOn, parent?, hreceiver, if_true]
  cases p.child? "method" with
  | none => simp
  | some method => by_cases ho : isSend (operator? p method) = true <;> simp [ho, eq_comm (a := call)]

/-- A node fills one field at most. -/
theorem childIndex?_ne {p : Node} {i : Nat} {name other : String} (h : p.childIndex? name = some i) (hne : name ≠ other) :
    p.childIndex? other ≠ some i := by
  intro h'
  obtain ⟨c, hc, hf, -⟩ := Node.childIndex?_eq_some_iff.1 h
  obtain ⟨c', hc', hf', -⟩ := Node.childIndex?_eq_some_iff.1 h'
  obtain rfl : c = c' := by simpa [hc] using hc'
  simp only [Node.hasField, beq_iff_eq] at hf hf'
  exact hne (by simpa [hf] using hf')

section

variable {n p : Node} {i : Nat} {above : List (Node × Nat)}

/-- The receiver of a call is a reference as soon as it is the target constant. -/
theorem reference?_receiver {r : Reference} (hk : p.kind = "call") (hi : p.childIndex? "receiver" = some i) :
    reference? source ⟨n, (p, i) :: above⟩ = some r ↔
      n.kind = "constant" ∧ n.text source = "Timecop" ∧ r = ⟨n, callOn source ⟨n, (p, i) :: above⟩⟩ := by
  have hmethod : fills "method" ⟨n, (p, i) :: above⟩ = false := by
    rw [← Bool.not_eq_true, fills_cons]
    exact childIndex?_ne hi (by decide)
  rw [reference?, referenceAt_other (by simp [hk])]
  simp [isTarget, standsFree, parent?, isAssignment, hk, hmethod, target, and_assoc, eq_comm (a := r)]

/-- The name of a receiver `::Name` is a reference as soon as it is the target constant and has no scope. -/
theorem reference?_name {m : Node} {j : Nat} {r : Reference} (hk : n.kind = "scope_resolution")
    (hj : n.childIndex? "name" = some j) : reference? source ⟨m, (n, j) :: above⟩ = some r ↔
      m.kind = "constant" ∧ m.text source = "Timecop" ∧ n.child? "scope" = none ∧ r = ⟨n, callOn source ⟨n, above⟩⟩ := by
  rw [reference?, referenceAt_name hk hj]
  simp [isTarget, standsFree, parent?, isAssignment, hk, fills_cons.2 hj, target, and_assoc, eq_comm (a := r)]

theorem standsForTarget_iff : StandsForTarget source n ↔
    (n.kind = "constant" ∧ n.text source = "Timecop") ∨
      (n.kind = "scope_resolution" ∧ n.child? "scope" = none ∧
        ∃ m, n.child? "name" = some m ∧ m.kind = "constant" ∧ m.text source = "Timecop") := by
  constructor
  · rintro (⟨h1, h2⟩ | ⟨h1, h2, h3, h4, h5⟩)
    · exact Or.inl ⟨h1, h2⟩
    · exact Or.inr ⟨h1, h2, _, h3, h4, h5⟩
  · rintro (⟨h1, h2⟩ | ⟨h1, h2, m, h3, h4, h5⟩)
    · exact .constant h1 h2
    · exact .rooted h1 h2 h3 h4 h5

/-- The reference that the call at `k` is made on. -/
def calledOn? (source : Bytes) (k : Cursor) : Option Reference := (subject? k).bind (reference? source)

theorem correction?_eq (source : Bytes) (k : Cursor) : correction? source k = (calledOn? source k).bind Reference.edit := by
  rw [calledOn?, Option.bind_assoc]
  rfl

/-- A call is made on a reference exactly if its receiver stands for the target. -/
theorem calledOn?_receiver {r : Reference} (hk : p.kind = "call") (hi : p.childIndex? "receiver" = some i)
    (hn : p.children[i]? = some n) : calledOn? source ⟨p, above⟩ = some r ↔
      StandsForTarget source n ∧ r = ⟨n, callOn source ⟨n, (p, i) :: above⟩⟩ := by
  have hsubject : calledOn? source ⟨p, above⟩ =
      (if n.kind == "scope_resolution" then inField? "name" ⟨n, (p, i) :: above⟩
        else some ⟨n, (p, i) :: above⟩).bind (reference? source) := by
    simp [calledOn?, subject?, hk, inField?_eq_some hi hn]
  rw [hsubject, standsForTarget_iff]
  by_cases hs : n.kind = "scope_resolution"
  · cases hj : n.childIndex? "name" with
    | none =>
      have hnone : n.child? "name" = none := by rw [Node.child?_eq_getElem?, hj]; rfl
      simp [hs, inField?, hj, hnone]
    | some j =>
      obtain ⟨m, hm, -, -⟩ := Node.childIndex?_eq_some_iff.1 hj
      simp [hs, inField?_eq_some hj hm, reference?_name hs hj, Node.child?_of_childIndex? hj hm]
      tauto
  · simp [hs, reference?_receiver hk hi, and_assoc]

/-- A call is corrected if its receiver stands for the target and the call on it is. -/
theorem correction?_receiver (hk : p.kind = "call") (hi : p.childIndex? "receiver" = some i) (hn : p.children[i]? = some n) :
    correction? source ⟨p, above⟩ = some e ↔
      StandsForTarget source n ∧ editOn source ⟨n, (p, i) :: above⟩ = some e := by
  rw [correction?_eq, Option.bind_eq_some_iff]
  simp only [calledOn?_receiver hk hi hn]
  constructor
  · rintro ⟨r, ⟨htarget, rfl⟩, he⟩
    exact ⟨htarget, he⟩
  · rintro ⟨htarget, he⟩
    exact ⟨_, ⟨htarget, rfl⟩, he⟩

/-- When the call on a receiver is corrected. -/
theorem editOn_receiver (hk : p.kind = "call") (hi : p.childIndex? "receiver" = some i) :
    editOn source ⟨n, (p, i) :: above⟩ = some e ↔
      ∃ method, p.child? "method" = some method ∧ isSend (operator? p method) = true ∧ method.kind ≠ "argument_list" ∧
        isAssigned ⟨p, above⟩ = false ∧
        ((method.text source = "freeze" ∧ argumentCount (p.child? "arguments") = 0 ∧
            e = ⟨n.start, method.stop, "freeze_time"⟩) ∨
          (method.text source = "return" ∧ p.child? "block" = none ∧ e = ⟨n.start, method.stop, "travel_back"⟩)) := by
  unfold editOn
  rw [edit_eq_some_iff]
  constructor
  · rintro ⟨call, token, hc, ht, rfl⟩
    replace hc : callOn source ⟨n, (p, i) :: above⟩ = some call := hc
    rw [hc, replacement?_eq_some_iff] at ht
    simp only [Reference.shape, Option.some.injEq] at ht
    obtain ⟨method, hm, ho, rfl⟩ := (callOn_eq_some_iff hk hi).1 hc
    rcases ht with ⟨hname, hcount, rfl⟩ | ⟨hname, hblock, rfl⟩
    · obtain ⟨hkind, hassigned, htext⟩ := method_callWith (Or.inl rfl) hname
      refine ⟨method, hm, ho, hkind, hassigned, Or.inl ⟨htext, ?_, rfl⟩⟩
      simpa [callWith, hkind] using hcount
    · obtain ⟨hkind, hassigned, htext⟩ := method_callWith (Or.inr rfl) hname
      refine ⟨method, hm, ho, hkind, hassigned, Or.inr ⟨htext, ?_, rfl⟩⟩
      simpa [callWith] using hblock
  · rintro ⟨method, hm, ho, hkind, hassigned, h⟩
    have hc : callOn source ⟨n, (p, i) :: above⟩ = some (callWith source ⟨p, above⟩ method) :=
      (callOn_eq_some_iff hk hi).2 ⟨method, hm, ho, rfl⟩
    rcases h with ⟨htext, hcount, rfl⟩ | ⟨htext, hblock, rfl⟩
    · refine ⟨_, freezeTime, hc, replacement?_eq_some_iff.2 (Or.inl ⟨?_, ?_, rfl⟩), rfl⟩
      · simp [Reference.shape, hc, callWith, hkind, hassigned, htext]
      · simp [Reference.shape, hc, callWith, hkind, hcount]
    · refine ⟨_, travelBack, hc, replacement?_eq_some_iff.2 (Or.inr ⟨?_, ?_, rfl⟩), rfl⟩
      · simp [Reference.shape, hc, callWith, hkind, hassigned, htext]
      · simp [Reference.shape, hc, callWith, hblock]

end

/-- A call is corrected by the edit that it asks for. -/
theorem correction?_eq_some_iff : correction? source k = some e ↔ Asks source k e := by
  obtain ⟨p, above⟩ := k
  constructor
  · intro h
    have hk : p.kind = "call" := isCall_of_correction? h
    obtain ⟨i, n, hi, hn⟩ := receiver_of_correction? h
    obtain ⟨htarget, hon⟩ := (correction?_receiver hk hi hn).1 h
    obtain ⟨method, hm, ho, hkind, hassigned, hasks⟩ := (editOn_receiver hk hi).1 hon
    have hsends : ∀ name, method.text source = name → Sends source ⟨p, above⟩ n method name := fun name htext =>
      ⟨hk, Node.child?_of_childIndex? hi hn, htarget, hm, hkind, isSend_operator?_iff.1 ho,
        isAssigned_eq_false_iff.1 hassigned, htext⟩
    rcases hasks with ⟨htext, hcount, rfl⟩ | ⟨htext, hblock, rfl⟩
    · exact .freeze (hsends _ htext) (argumentCount_eq_zero_iff.1 hcount)
    · exact .back (hsends _ htext) hblock
  · intro h
    have key : ∀ {receiver method : Node} {name : String}, Sends source ⟨p, above⟩ receiver method name →
        ((name = "freeze" ∧ argumentCount (p.child? "arguments") = 0 ∧
            e = ⟨receiver.start, method.stop, "freeze_time"⟩) ∨
          (name = "return" ∧ p.child? "block" = none ∧ e = ⟨receiver.start, method.stop, "travel_back"⟩)) →
        correction? source ⟨p, above⟩ = some e := by
      rintro receiver method name s hasks
      obtain ⟨i, hi, hn⟩ := Node.child?_eq_some s.hasReceiver
      refine (correction?_receiver s.isCall hi hn).2 ⟨s.toTarget, (editOn_receiver s.isCall hi).2 ⟨method, s.hasMethod,
        isSend_operator?_iff.2 s.operator, s.explicit, isAssigned_eq_false_iff.2 s.unassigned, ?_⟩⟩
      rw [s.text]
      exact hasks
    cases h with
    | freeze sends bare => exact key sends (Or.inl ⟨rfl, argumentCount_eq_zero_iff.2 bare, rfl⟩)
    | back sends noBlock => exact key sends (Or.inr ⟨rfl, noBlock, rfl⟩)

/-- Where the subject of a call stands. -/
theorem subject?_eq_some {p c : Cursor} (h : subject? p = some c) :
    p.node.kind = "call" ∧ ∃ r, inField? "receiver" p = some r ∧
      ((r.node.kind ≠ "scope_resolution" ∧ c = r) ∨ (r.node.kind = "scope_resolution" ∧ inField? "name" r = some c)) := by
  unfold subject? at h
  split at h
  · rename_i hk
    obtain ⟨r, hr, h⟩ := Option.bind_eq_some_iff.1 h
    refine ⟨by simpa using hk, r, hr, ?_⟩
    split at h
    · rename_i hs
      exact Or.inr ⟨by simpa using hs, h⟩
    · rename_i hs
      exact Or.inl ⟨by simpa using hs, by simpa using h.symm⟩
  · cases h

/-- Different calls have different subjects: the way up from a constant leads to one call. -/
theorem subject?_injective {p q c : Cursor} (hp : subject? p = some c) (hq : subject? q = some c) : p = q := by
  obtain ⟨pn, pa⟩ := p
  obtain ⟨qn, qa⟩ := q
  obtain ⟨hpk, r, hr, hc⟩ := subject?_eq_some hp
  obtain ⟨hqk, r', hr', hc'⟩ := subject?_eq_some hq
  obtain ⟨i, n, -, -, rfl⟩ := of_inField? hr
  obtain ⟨i', n', -, -, rfl⟩ := of_inField? hr'
  rcases hc with ⟨-, rfl⟩ | ⟨hs, hc⟩ <;> rcases hc' with ⟨-, hc'⟩ | ⟨hs', hc'⟩
  · simp_all
  · -- the receiver of one call would be the name below the receiver of the other
    obtain ⟨j, m, -, -, heq⟩ := of_inField? hc'
    simp_all
  · obtain ⟨j, m, -, -, rfl⟩ := of_inField? hc
    simp_all
  · obtain ⟨j, m, -, -, rfl⟩ := of_inField? hc
    obtain ⟨j', m', -, -, heq⟩ := of_inField? hc'
    simp_all

/-- A corrected constant is the subject of a visited call. -/
theorem subject?_of_editAt {tree : Node} {c : Cursor} (hc : c ∈ preorder [] tree) (h : editAt source c = some e) :
    ∃ p ∈ preorder [] tree, subject? p = some c := by
  obtain ⟨m, above⟩ := c
  cases above with
  | nil => simp [editAt_root] at h
  | cons x above =>
    obtain ⟨n, j⟩ := x
    obtain ⟨hn, hj⟩ := parent_mem_preorder hc
    rcases subject_of_editAt (attached_of_mem_preorder hn) hj h with ⟨-, hs⟩ | ⟨-, -, q, k, rest, rfl, -, hs⟩
    · exact ⟨_, hn, hs⟩
    · exact ⟨_, (parent_mem_preorder hn).1, hs⟩

theorem subject?_mem_preorder {tree : Node} {p c : Cursor} (hp : p ∈ preorder [] tree) (h : subject? p = some c) :
    c ∈ preorder [] tree := by
  obtain ⟨-, r, hr, ⟨-, rfl⟩ | ⟨-, hc⟩⟩ := subject?_eq_some h
  · exact inField?_mem_preorder hp hr
  · exact inField?_mem_preorder (inField?_mem_preorder hp hr) hc

/-- The reference that a visited constant makes is visited too. -/
theorem referenceAt_mem_preorder {tree : Node} {c : Cursor} (hc : c ∈ preorder [] tree) : referenceAt c ∈ preorder [] tree := by
  obtain ⟨m, above⟩ := c
  cases above with
  | nil => exact hc
  | cons x above =>
    obtain ⟨n, j⟩ := x
    by_cases hname : n.kind = "scope_resolution" ∧ n.childIndex? "name" = some j
    · rw [referenceAt_name hname.1 hname.2]
      exact (parent_mem_preorder hc).1
    · rw [referenceAt_other hname]
      exact hc

/-- The edits found from constants up are those of the calls, read from the calls down. -/
theorem edits_perm_corrections (source : Bytes) (tree : Node) :
    (checkTree source tree).edits.Perm ((preorder [] tree).filterMap (correction? source)) := by
  have hmade : ∀ l : List Cursor, l.filterMap (editAt source) =
      (l.filter fun c => (editAt source c).isSome).filterMap (editAt source) := by
    intro l
    rw [List.filterMap_filter]
    refine List.filterMap_congr fun c _ => ?_
    cases editAt source c <;> rfl
  have hsubjects : (preorder [] tree).filterMap (correction? source) =
      ((preorder [] tree).filterMap subject?).filterMap (editAt source) := by
    rw [List.filterMap_filterMap]
    rfl
  have hnodup := nodup_preorder [] tree
  rw [checkTree_edits, gather, hsubjects, hmade, hmade ((preorder [] tree).filterMap subject?)]
  refine List.Perm.filterMap _ ((List.perm_ext_iff_of_nodup (hnodup.filter _)
    ((List.Nodup.filterMap (fun p q c hp hq => subject?_injective hp hq) hnodup).filter _)).2 fun c => ?_)
  simp only [List.mem_filter, List.mem_filterMap, Option.isSome_iff_exists]
  constructor
  · rintro ⟨hc, e, he⟩
    exact ⟨subject?_of_editAt hc he, e, he⟩
  · rintro ⟨⟨p, hp, hs⟩, e, he⟩
    exact ⟨subject?_mem_preorder hp hs, e, he⟩

/-- The edits of a tree are those that its calls ask for, each call being visited once and asking for one edit at
most. -/
theorem checkTree_edits_asked (source : Bytes) (tree : Node) :
    (checkTree source tree).edits.Perm ((preorder [] tree).filterMap (correction? source)) ∧
      (∀ k e, correction? source k = some e ↔ Asks source k e) ∧ (preorder [] tree).Nodup ∧
      ∀ k e e', Asks source k e → Asks source k e' → e = e' := by
  refine ⟨edits_perm_corrections source tree, fun k e => correction?_eq_some_iff, nodup_preorder [] tree, ?_⟩
  intro k e e' h h'
  rw [← correction?_eq_some_iff] at h h'
  simpa [h] using h'

end TimeLint.Offense
