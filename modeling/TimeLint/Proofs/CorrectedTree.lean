import TimeLint.Proofs.Offsets
import TimeLint.Proofs.Placement

/-! The tree of the corrected source. Every corrected call loses its children from the receiver up to the
selector and gets the new token as its method; a call left with the token alone becomes the token. All
other offsets move by the net growth of the edits before them. -/

namespace TimeLint

/-- What becomes of offsets and points. `place` gives the row and column of a new offset; it is told the
point that the old offset had. -/
structure Layout where
  edits : List Edit
  place : Int → Point → Point

namespace Layout

variable (l : Layout)

def offset (o : Int) : Int := Edit.moved l.edits o

def point (o : Int) (p : Point) : Point := l.place (l.offset o) p

def extent (x : Extent) : Extent :=
  { start := l.offset x.start
    stop := l.offset x.stop
    first := l.point x.start x.first
    last := l.point x.stop x.last }

def range (r : SourceRange) : SourceRange :=
  let first := l.point r.start ⟨r.startLine - 1, r.startColumn - 1⟩
  let last := l.point r.stop ⟨r.endLine - 1, r.endColumn - 1⟩
  { start := l.offset r.start
    stop := l.offset r.stop
    startLine := first.row + 1
    startColumn := first.column + 1
    endLine := last.row + 1
    endColumn := last.column + 1 }

def diagnostic (d : Diagnostic) : Diagnostic := { d with range := l.range d.range }

end Layout

namespace Offense

/-- How a call is corrected: the edit, and the children that it replaces. -/
structure Rewriting where
  edit : Edit
  first : Nat
  last : Nat
  receiver : Node
  selector : Node

def rewriting? (source : Bytes) (p : Cursor) : Option Rewriting := do
  let edit ← correction? source p
  let first ← p.node.childIndex? "receiver"
  let last ← p.node.childIndex? "method"
  let receiver ← p.node.children[first]?
  let selector ← p.node.children[last]?
  return ⟨edit, first, last, receiver, selector⟩

/-- The new token, as the method of a call. -/
def token (l : Layout) (r : Rewriting) : Node :=
  { kind := "identifier"
    extent :=
      { start := l.offset r.edit.start
        stop := l.offset r.edit.start + (Bytes.ofString r.edit.replacement).length
        first := l.point r.receiver.start r.receiver.extent.first
        last := l.point r.selector.stop r.selector.extent.last }
    named := true
    missing := false
    broken := false
    field := some "method"
    children := [] }

/-- The call `n` with `cs` for its children, in which the new token takes the place of what is replaced. -/
def replaced (l : Layout) (n : Node) (cs : List Node) (r : Rewriting) : Node :=
  match cs.take r.first, cs.drop (r.last + 1) with
  | [], [] => { token l r with field := n.field, named := n.named }
  | front, back => { n with extent := l.extent n.extent, children := front ++ token l r :: back }

mutual

/-- The tree as it stands in the corrected source. -/
def amend (source : Bytes) (l : Layout) (above : List (Node × Nat)) : Node → Node
  | ⟨kind, extent, named, missing, broken, field, cs⟩ =>
    let here : Node := ⟨kind, extent, named, missing, broken, field, cs⟩
    let children := amends source l here above 0 cs
    match rewriting? source ⟨here, above⟩ with
    | none => ⟨kind, l.extent extent, named, missing, broken, field, children⟩
    | some r => replaced l here children r

def amends (source : Bytes) (l : Layout) (p : Node) (above : List (Node × Nat)) (i : Nat) : List Node → List Node
  | [] => []
  | n :: ns => amend source l ((p, i) :: above) n :: amends source l p above (i + 1) ns

end

/-- What the corrections of a tree make of offsets. -/
def layoutOf (source : Bytes) (tree : Node) (place : Int → Point → Point) : Layout :=
  ⟨(checkTree source tree).edits, place⟩

/-- The tree of the corrected source. -/
def correctedTree (source : Bytes) (tree : Node) (place : Int → Point → Point) : Node :=
  amend source (layoutOf source tree place) [] tree

section

variable {source : Bytes} {l : Layout} {p n : Node} {above : List (Node × Nat)}

theorem amend_eq : amend source l above n =
    match rewriting? source ⟨n, above⟩ with
    | none => { n with extent := l.extent n.extent, children := amends source l n above 0 n.children }
    | some r => replaced l n (amends source l n above 0 n.children) r := by
  cases n
  rw [amend]

theorem amend_plain (h : correction? source ⟨n, above⟩ = none) : amend source l above n =
    { n with extent := l.extent n.extent, children := amends source l n above 0 n.children } := by
  rw [amend_eq, rewriting?, h]
  rfl

theorem Cut.rewriting?_eq {e : Edit} {i k : Nat} {receiver selector : Node} (c : Cut source p e i k receiver selector)
    (h : correction? source ⟨p, above⟩ = some e) :
    rewriting? source ⟨p, above⟩ = some ⟨e, i, k, receiver, selector⟩ := by
  simp [rewriting?, h, c.corrects.receiver, c.methodAt, c.receiverAt, c.selectorAt]

theorem Cut.amend_eq {e : Edit} {i k : Nat} {receiver selector : Node} (c : Cut source p e i k receiver selector)
    (h : correction? source ⟨p, above⟩ = some e) :
    amend source l above p = replaced l p (amends source l p above 0 p.children) ⟨e, i, k, receiver, selector⟩ := by
  rw [Offense.amend_eq, c.rewriting?_eq h]

/-- A corrected call becomes the new token if nothing else is left of it, and else keeps what is left. -/
theorem replaced_cases (l : Layout) (n : Node) (cs : List Node) (r : Rewriting) :
    (cs.take r.first = [] ∧ cs.drop (r.last + 1) = [] ∧
        replaced l n cs r = { token l r with field := n.field, named := n.named }) ∨
      replaced l n cs r = { n with extent := l.extent n.extent,
                                   children := cs.take r.first ++ token l r :: cs.drop (r.last + 1) } := by
  unfold replaced
  split
  · rename_i h1 h2
    exact Or.inl ⟨h1, h2, rfl⟩
  · exact Or.inr rfl

theorem replaced_of_kept (l : Layout) (n : Node) {cs : List Node} {r : Rewriting} {i : Nat} (hi : i < cs.length)
    (h : i < r.first ∨ r.last < i) :
    replaced l n cs r = { n with extent := l.extent n.extent,
                                 children := cs.take r.first ++ token l r :: cs.drop (r.last + 1) } := by
  rcases replaced_cases l n cs r with ⟨h1, h2, -⟩ | heq
  · have hlen1 := congrArg List.length h1
    have hlen2 := congrArg List.length h2
    simp only [List.length_take, List.length_drop, List.length_nil] at hlen1 hlen2
    omega
  · exact heq

theorem amend_field : (amend source l above n).field = n.field := by
  rw [amend_eq]
  split
  · rfl
  · rename_i r _
    rcases replaced_cases l n (amends source l n above 0 n.children) r with ⟨-, -, h⟩ | h <;> rw [h]

theorem amend_named : (amend source l above n).named = n.named := by
  rw [amend_eq]
  split
  · rfl
  · rename_i r _
    rcases replaced_cases l n (amends source l n above 0 n.children) r with ⟨-, -, h⟩ | h <;> rw [h]

theorem amends_length (i : Nat) (ns : List Node) : (amends source l p above i ns).length = ns.length := by
  induction ns generalizing i with
  | nil => rfl
  | cons n ns ih => simp [amends, ih]

theorem amends_eq_nil {i : Nat} {ns : List Node} (h : amends source l p above i ns = []) : ns = [] := by
  rw [← List.length_eq_zero_iff, ← @amends_length source l p above i ns, h, List.length_nil]

theorem amends_getElem? (i j : Nat) (ns : List Node) :
    (amends source l p above i ns)[j]? = ns[j]?.map (amend source l ((p, i + j) :: above)) := by
  induction ns generalizing i j with
  | nil => rfl
  | cons n ns ih =>
    cases j with
    | zero => rfl
    | succ j =>
      simp only [amends, List.getElem?_cons_succ, ih]
      rw [show i + 1 + j = i + (j + 1) by omega]

theorem amends_take (i k : Nat) (ns : List Node) :
    (amends source l p above i ns).take k = amends source l p above i (ns.take k) := by
  induction ns generalizing i k with
  | nil => simp [amends]
  | cons n ns ih =>
    cases k with
    | zero => rfl
    | succ k => simp [amends, ih]

theorem amends_drop (i k : Nat) (ns : List Node) :
    (amends source l p above i ns).drop k = amends source l p above (i + k) (ns.drop k) := by
  induction ns generalizing i k with
  | nil => simp [amends]
  | cons n ns ih =>
    cases k with
    | zero => rfl
    | succ k =>
      simp only [amends, List.drop_succ_cons, ih]
      rw [show i + 1 + k = i + (k + 1) by omega]

/-- Siblings that look the same to a test and to a reading before and after look the same as a list. -/
theorem amends_filter_map {β : Type} {test test' : Node → Bool} {reading reading' : Node → β} (i : Nat) (ns : List Node)
    (h : ∀ j c, ns[j]? = some c → test' (amend source l ((p, i + j) :: above) c) = test c ∧
      (test c = true → reading' (amend source l ((p, i + j) :: above) c) = reading c)) :
    ((amends source l p above i ns).filter test').map reading' = (ns.filter test).map reading := by
  induction ns generalizing i with
  | nil => rfl
  | cons n ns ih =>
    obtain ⟨ht, hr⟩ := h 0 n rfl
    have hns := ih (i + 1) fun j c hj => by
      rw [show i + 1 + j = i + (j + 1) by omega]
      exact h (j + 1) c hj
    rw [Nat.add_zero] at ht hr
    rw [amends, List.filter_cons, List.filter_cons, ht]
    cases htest : test n with
    | false => simpa using hns
    | true => simpa [hr htest] using hns

end

end Offense

end TimeLint
