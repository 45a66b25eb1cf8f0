import TimeLint.Offense.Check
import TimeLint.Proofs.Tree

/-! The first fault of a tree. Where every node's flag says whether there is a fault at the node or below, the
first fault in pre-order is in the first broken child, so the way down through first broken children never misses it
and never runs dry. -/

namespace TimeLint

namespace Node

variable {n t : Node} {ns : List Node}

/-- The flag of every node says whether there is a fault at the node or a flag below it. -/
def Flagged (t : Node) : Prop :=
  ∀ n ∈ t.nodes, n.broken = true ↔ n.isFault = true ∨ ∃ c ∈ n.children, c.broken = true

instance (t : Node) : Decidable t.Flagged :=
  inferInstanceAs (Decidable (∀ n ∈ t.nodes, n.broken = true ↔ n.isFault = true ∨ ∃ c ∈ n.children, c.broken = true))

theorem Flagged.child {c : Node} (h : t.Flagged) (hc : c ∈ t.children) : c.Flagged :=
  fun n hn => h n (mem_nodes_of_child hc hn)

theorem Flagged.broken_iff (h : t.Flagged) : t.broken = true ↔ ∃ n ∈ t.nodes, n.isFault = true := by
  induction t using Node.induct with
  | step t ih =>
    rw [h t (self_mem_nodes t)]
    constructor
    · rintro (ht | ⟨c, hc, hbroken⟩)
      · exact ⟨t, self_mem_nodes t, ht⟩
      · obtain ⟨n, hn, hfault⟩ := (ih c hc (h.child hc)).1 hbroken
        exact ⟨n, mem_nodes_of_child hc hn, hfault⟩
    · rintro ⟨n, hn, hfault⟩
      rcases mem_nodes.1 hn with rfl | ⟨c, hc, hn⟩
      · exact Or.inl hfault
      · exact Or.inr ⟨c, hc, (ih c hc (h.child hc)).2 ⟨n, hn, hfault⟩⟩

/-- The line on which a fault is reported. -/
def line (n : Node) : Int := n.extent.first.row + 1

theorem faultLine_eq (n : Node) : n.faultLine = if n.isFault then some n.line else faultLines n.children := by
  cases n; rfl

/-- Before the first broken child there is no fault, and in it there is one. -/
theorem faultLines_eq (hflag : ∀ m ∈ ns, m.Flagged)
    (hline : ∀ m ∈ ns, m.faultLine = (m.nodes.find? isFault).map line) :
    faultLines ns = ((nodesOf ns).find? isFault).map line := by
  induction ns with
  | nil => rfl
  | cons m ns ih =>
    have hm := (hflag m List.mem_cons_self).broken_iff
    rw [faultLines, nodesOf, List.find?_append]
    split
    · rename_i hbroken
      obtain ⟨n, hn⟩ := Option.isSome_iff_exists.1 (List.find?_isSome.2 (hm.1 hbroken))
      rw [hline m List.mem_cons_self, hn]
      rfl
    · rename_i hbroken
      have hnone : m.nodes.find? isFault = none := by
        rw [List.find?_eq_none]
        exact fun n hn hfault => hbroken (hm.2 ⟨n, hn, hfault⟩)
      rw [hnone, Option.none_or]
      exact ih (fun x hx => hflag x (List.mem_cons_of_mem m hx)) fun x hx => hline x (List.mem_cons_of_mem m hx)

theorem Flagged.faultLine_eq_find? (h : t.Flagged) : t.faultLine = (t.nodes.find? isFault).map line := by
  induction t using Node.induct with
  | step t ih =>
    rw [faultLine_eq, nodes_eq, List.find?_cons]
    cases hfault : t.isFault with
    | true => rfl
    | false =>
      exact faultLines_eq (fun m hm => h.child hm) fun m hm => ih m hm (h.child hm)

/-- The fault that is visited first. -/
def firstFault? (tree : Node) : Option Cursor := (Cursor.walk #[.root tree]).find? (·.node.isFault)

theorem map_node_firstFault? (tree : Node) : tree.firstFault?.map (·.node) = tree.nodes.find? isFault := by
  rw [firstFault?, Cursor.root, Cursor.walk_node, ← Cursor.map_node_preorder [] tree, List.find?_map]
  rfl

theorem Flagged.faultLine_eq_firstFault? (h : t.Flagged) : t.faultLine = t.firstFault?.map (·.node.line) := by
  rw [h.faultLine_eq_find?, ← map_node_firstFault?, Option.map_map]
  rfl

theorem Flagged.broken_eq (h : t.Flagged) : t.broken = t.firstFault?.isSome := by
  have hfind : t.firstFault?.isSome = (t.nodes.find? isFault).isSome := by
    rw [← map_node_firstFault?, Option.isSome_map]
  rw [hfind, Bool.eq_iff_iff, h.broken_iff, List.find?_isSome]

/-- The reply of a strict reading, told from the fault that is visited first. -/
theorem Flagged.strict_of_firstFault? (h : t.Flagged) :
    (t.firstFault? = none → t.strict = .ok t) ∧
      ∀ c, t.firstFault? = some c → t.strict = .error ⟨some c.node.line⟩ := by
  rw [strict, h.broken_eq, h.faultLine_eq_firstFault?]
  constructor
  · intro hnone
    rw [hnone]
    rfl
  · intro c hsome
    rw [hsome]
    rfl

/-- A strict reading of a tree with honest flags is refused exactly if a fault is visited, and then with the line
of the fault that is visited first. Any other tree is returned as it was read. -/
theorem strict_names_first_fault (parse : Parser) (source : Bytes) (h : (parse source).Flagged) :
    ((∃ f, (parse source).strict = .error f) ↔ ∃ c ∈ Cursor.walk #[.root (parse source)], c.node.isFault = true) ∧
    (∀ f, (parse source).strict = .error f → ∃ c,
      (Cursor.walk #[.root (parse source)]).find? (·.node.isFault) = some c ∧
        f.line = some (1 + c.node.extent.first.row)) ∧
    ((¬ ∃ c ∈ Cursor.walk #[.root (parse source)], c.node.isFault = true) →
      (parse source).strict = .ok (parse source)) := by
  obtain ⟨hok, herror⟩ := h.strict_of_firstFault?
  have hvisited : (∃ c ∈ Cursor.walk #[.root (parse source)], c.node.isFault = true) ↔
      (parse source).firstFault?.isSome = true := List.find?_isSome.symm
  rw [hvisited]
  cases hfirst : (parse source).firstFault? with
  | none =>
    rw [hok hfirst]
    simp
  | some c =>
    rw [herror c hfirst]
    refine ⟨by simp, ?_, by simp⟩
    intro f hf
    obtain rfl := Except.error.inj hf
    exact ⟨c, hfirst, congrArg some (Int.add_comm _ _)⟩

/-- A node that begins a line, with a flag. -/
def onRow (kind : String) (row : Int) (missing broken : Bool) (children : List Node) : Node :=
  ⟨kind, ⟨0, 0, ⟨row, 0⟩, ⟨row, 0⟩⟩, true, missing, broken, none, children⟩

/-- A method whose `end` is missing on the fourth line, between a comment and an error on the fifth. -/
def unfinishedMethod : Node :=
  onRow "program" 0 false true
    [onRow "comment" 0 false false [],
     onRow "method" 1 false true
       [onRow "identifier" 1 false false [], onRow "body_statement" 2 false true [onRow "end" 3 true true []]],
     onRow "ERROR" 4 false true [onRow "constant" 4 false false []]]

/-- Of the two faults the one that is deeper in the tree is named, because it is visited first. -/
theorem unfinishedMethod_refused : unfinishedMethod.Flagged ∧ unfinishedMethod.strict = .error ⟨some 4⟩ ∧
    ∃ c, (Cursor.walk #[.root unfinishedMethod]).find? (·.node.isFault) = some c ∧ 1 + c.node.extent.first.row = 4 := by
  have hflagged : unfinishedMethod.Flagged := by decide
  obtain ⟨c, hc, hline⟩ := (strict_names_first_fault (fun _ => unfinishedMethod) [] hflagged).2.1 ⟨some 4⟩ rfl
  exact ⟨hflagged, rfl, c, hc, (Option.some.inj hline).symm⟩

end Node

end TimeLint
