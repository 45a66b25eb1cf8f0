import TimeLint.Proofs.Verdicts

/-! Calls that something is assigned to. Such a call sends a writer method and has no correction. The check sees an
assignment from the node next above the call only: the call on the left side of an assignment and the call that is an
item of a list of targets are left alone. A target in a splat or in parentheses is judged as if it stood alone. -/

namespace TimeLint.Offense

open Cursor

variable {source : Bytes} {k : Cursor} {r : Reference}

/-- The way up leads through splats and groups, and nothing else, to a list of assignment targets. -/
inductive InTargetList : List (Node × Nat) → Prop
  | list {p : Node} {i : Nat} {above : List (Node × Nat)} (kind : p.kind = "left_assignment_list") :
      InTargetList ((p, i) :: above)
  | splat {p : Node} {i : Nat} {above : List (Node × Nat)} (kind : p.kind = "rest_assignment") (up : InTargetList above) :
      InTargetList ((p, i) :: above)
  | group {p : Node} {i : Nat} {above : List (Node × Nat)} (kind : p.kind = "destructured_left_assignment")
      (up : InTargetList above) : InTargetList ((p, i) :: above)

/-- Something is assigned to what stands at `k`. -/
inductive AssignmentTarget (k : Cursor) : Prop
  | left {p : Node} {i : Nat} {above : List (Node × Nat)} (way : k.above = (p, i) :: above)
      (kind : p.kind = "assignment" ∨ p.kind = "operator_assignment") (field : p.childIndex? "left" = some i)
  | listed (way : InTargetList k.above)

/-- What stands at `k` is in a splat or in a group. -/
def Wrapped (k : Cursor) : Prop :=
  ∃ x ∈ k.above.head?, x.1.kind = "rest_assignment" ∨ x.1.kind = "destructured_left_assignment"

/-- The check takes a target for one exactly if it is not wrapped. -/
theorem isAssigned_eq_false_iff_wrapped (h : AssignmentTarget k) : isAssigned k = false ↔ Wrapped k := by
  obtain ⟨n, above⟩ := k
  rw [isAssigned_eq_false_iff]
  cases h with
  | left way kind field =>
    obtain rfl : above = _ := way
    rcases kind with hk | hk <;> simp [Wrapped, hk, field]
  | listed way =>
    cases way with
    | list kind => simp [Wrapped, kind]
    | splat kind up => simp [Wrapped, kind]
    | group kind up => simp [Wrapped, kind]

theorem callOn_root {n p : Node} {i : Nat} {above : List (Node × Nat)} (hfree : isAssigned ⟨p, above⟩ = false) :
    callOn source ⟨n, (p, i) :: above⟩ = callOn source ⟨n, [(p, i)]⟩ := by
  have hroot : isAssigned ⟨p, []⟩ = false := rfl
  simp only [callOn, parent?, fills, callWith, hfree, hroot]

/-- What a call is made on, and how it is read, depends on the nodes above the call only through being assigned to. -/
theorem calledOn?_root (hfree : isAssigned k = false) (h : calledOn? source k = some r) :
    calledOn? source (root k.node) = some r := by
  obtain ⟨hk, i, hi, hn, htarget, hcall⟩ := calledOn?_eq_some h
  rw [callOn_root hfree] at hcall
  exact (calledOn?_receiver hk hi hn).2 ⟨htarget, by rw [← hcall]⟩

theorem sends_root_iff {receiver method : Node} {name : String} (hfree : isAssigned k = false) :
    Sends source (root k.node) receiver method name ↔ Sends source k receiver method name := by
  constructor
  · intro h
    exact { h with unassigned := isAssigned_eq_false_iff.1 hfree }
  · intro h
    exact { h with unassigned := isAssigned_eq_false_iff.1 rfl }

/-- A call that something is assigned to is left alone exactly if it is not wrapped, or would be left alone for its
method. A wrapped one gets the verdict that the same call gets on its own. -/
theorem assignment_target_verdict (source : Bytes) (tree : Node) (k : Cursor) (hk : k ∈ preorder [] tree)
    (hon : OnTarget source k) (ht : AssignmentTarget k) :
    ∃ r ∈ references source tree, calledOn? source k = some r ∧
      (r.diagnostic.kind = .genericUsage ∧ r.diagnostic.correctable = false ∧ r.edit = none ↔
        ¬ Wrapped k ∨ ∀ name ∈ ["freeze", "return", "travel"], ∀ receiver method,
          ¬ Sends source (root k.node) receiver method name) ∧
      (Wrapped k → calledOn? source (root k.node) = some r) := by
  obtain ⟨r, hr⟩ := calledOn?_of_onTarget hon
  have hwrapped := isAssigned_eq_false_iff_wrapped ht
  refine ⟨r, mem_references hk hr, hr, ?_, fun hw => calledOn?_root (hwrapped.2 hw) hr⟩
  constructor
  · rintro ⟨hkind, -, -⟩
    by_cases hw : Wrapped k
    · right
      simp only [sends_root_iff (hwrapped.2 hw)]
      exact (kind_eq_genericUsage_iff hr).1 hkind
    · exact Or.inl hw
  · intro h
    have hkind : r.diagnostic.kind = .genericUsage := by
      rw [kind_eq_genericUsage_iff hr]
      intro name hname receiver method hs
      have hfree := isAssigned_eq_false_iff.2 hs.unassigned
      rcases h with hw | hno
      · exact hw (hwrapped.1 hfree)
      · exact hno name hname receiver method ((sends_root_iff hfree).2 hs)
    exact ⟨hkind, withheld_of_genericUsage hr hkind⟩

/-- A target on the left side of an assignment, `Timecop.freeze = x`. -/
def writerSource : Bytes := Bytes.ofString "Timecop.freeze = x"

def writerAssignment : Node :=
  lineNode "assignment" 0 18 true none
    [sendAt 0 14 (some "left") [], lineNode "=" 15 16 false none [], lineNode "identifier" 17 18 true (some "right") []]

/-- The target on the left side is left alone. -/
theorem writer_left_alone : ∃ k ∈ preorder [] writerAssignment, OnTarget writerSource k ∧ AssignmentTarget k ∧ ¬ Wrapped k ∧
    ∃ r ∈ references writerSource writerAssignment, calledOn? writerSource k = some r ∧
      r.diagnostic.kind = .genericUsage ∧ r.diagnostic.correctable = false ∧ r.edit = none := by
  have hk : ⟨sendAt 0 14 (some "left") [], [(writerAssignment, 0)]⟩ ∈ preorder [] writerAssignment :=
    child_mem_preorder (self_mem_preorder writerAssignment []) rfl
  have hon : OnTarget writerSource ⟨sendAt 0 14 (some "left") [], [(writerAssignment, 0)]⟩ :=
    ⟨rfl, _, rfl, .constant rfl (Node.text_eq rfl)⟩
  have ht : AssignmentTarget ⟨sendAt 0 14 (some "left") [], [(writerAssignment, 0)]⟩ := .left rfl (Or.inl rfl) rfl
  have hw : ¬ Wrapped ⟨sendAt 0 14 (some "left") [], [(writerAssignment, 0)]⟩ := by
    simp [Wrapped, writerAssignment, lineNode]
  obtain ⟨r, hmem, hr, hiff, -⟩ := assignment_target_verdict writerSource writerAssignment _ hk hon ht
  exact ⟨_, hk, hon, ht, hw, r, hmem, hr, hiff.2 (Or.inl hw)⟩

/-- Targets in a group and in a splat, `a, (Timecop.freeze, *Timecop.return) = x`. -/
def wrappedSource : Bytes := Bytes.ofString "a, (Timecop.freeze, *Timecop.return) = x"

def wrappedSplat : Node :=
  lineNode "rest_assignment" 20 35 true none [lineNode "*" 20 21 false none [], sendAt 21 35 none []]

def wrappedGroup : Node :=
  lineNode "destructured_left_assignment" 3 36 true none
    [lineNode "(" 3 4 false none [], sendAt 4 18 none [], lineNode "," 18 19 false none [], wrappedSplat,
      lineNode ")" 35 36 false none []]

def wrappedList : Node :=
  lineNode "left_assignment_list" 0 36 true (some "left")
    [lineNode "identifier" 0 1 true none [], lineNode "," 1 2 false none [], wrappedGroup]

def wrappedAssignment : Node :=
  lineNode "assignment" 0 40 true none
    [wrappedList, lineNode "=" 37 38 false none [], lineNode "identifier" 39 40 true (some "right") []]

/-- The call in the group. -/
def groupedCall : Cursor :=
  ⟨sendAt 4 18 none [], [(wrappedGroup, 1), (wrappedList, 2), (wrappedAssignment, 0)]⟩

/-- The call in the splat in the group. -/
def splatCall : Cursor :=
  ⟨sendAt 21 35 none [], [(wrappedSplat, 1), (wrappedGroup, 3), (wrappedList, 2), (wrappedAssignment, 0)]⟩

/-- Something is assigned to the call at `k`, and still it is corrected. -/
def CorrectedTarget (source : Bytes) (tree : Node) (k : Cursor) (e : Edit) : Prop :=
  k ∈ preorder [] tree ∧ OnTarget source k ∧ AssignmentTarget k ∧
    ∃ r ∈ references source tree, calledOn? source k = some r ∧ r.diagnostic.kind ≠ .genericUsage ∧
      r.diagnostic.correctable = true ∧ r.edit = some e ∧ e ∈ (checkTree source tree).edits

/-- A target in parentheses and one behind a splat in them are corrected, and the assignment then sends no writer. -/
theorem wrapped_targets_corrected :
    CorrectedTarget wrappedSource wrappedAssignment groupedCall ⟨4, 18, "freeze_time"⟩ ∧
      CorrectedTarget wrappedSource wrappedAssignment splatCall ⟨21, 35, "travel_back"⟩ := by
  have hgroup : ⟨wrappedGroup, [(wrappedList, 2), (wrappedAssignment, 0)]⟩ ∈ preorder [] wrappedAssignment :=
    child_mem_preorder (child_mem_preorder (self_mem_preorder wrappedAssignment []) rfl) rfl
  have hgrouped : groupedCall ∈ preorder [] wrappedAssignment := child_mem_preorder hgroup rfl
  have hsplat : splatCall ∈ preorder [] wrappedAssignment := child_mem_preorder (child_mem_preorder hgroup rfl) rfl
  have hfreeze : Sends wrappedSource groupedCall _ _ "freeze" := sends_sendAt rfl rfl (by simp) rfl
  have hreturn : Sends wrappedSource splatCall _ _ "return" := sends_sendAt rfl rfl (by simp) rfl
  refine ⟨⟨hgrouped, hfreeze.onTarget, .listed (.group rfl (.list rfl)), ?_⟩,
    ⟨hsplat, hreturn.onTarget, .listed (.splat rfl (.group rfl (.list rfl))), ?_⟩⟩
  · exact reported_of_asks hgrouped (.freeze hfreeze (argumentCount_eq_zero_iff.1 rfl))
  · exact reported_of_asks hsplat (.back hreturn rfl)

end TimeLint.Offense
