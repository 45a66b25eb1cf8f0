import TimeLint.Proofs.Correction

/-! The cursors of a tree. `preorder` visits the top, what is below each child, and nothing else; it visits
no place twice, and with a place it visits the places above it. Of two places in a tree one is below the
other, or they are below different children of one node. -/

namespace TimeLint.Cursor

variable {n : Node} {above : List (Node × Nat)} {a b c : Cursor}

theorem mem_preorders {p : Node} {i : Nat} {ns : List Node} :
    c ∈ preorders p above i ns ↔ ∃ j m, ns[j]? = some m ∧ c ∈ preorder ((p, i + j) :: above) m := by
  induction ns generalizing i with
  | nil => simp [preorders]
  | cons x ns ih =>
    rw [preorders, List.mem_append, ih]
    constructor
    · rintro (h | ⟨j, m, hj, h⟩)
      · exact ⟨0, x, rfl, h⟩
      · exact ⟨j + 1, m, hj, by rwa [← Nat.add_assoc, Nat.add_right_comm]⟩
    · rintro ⟨j, m, hj, h⟩
      cases j with
      | zero =>
        obtain rfl : x = m := by simpa using hj
        exact Or.inl h
      | succ j => exact Or.inr ⟨j, m, hj, by rwa [Nat.add_right_comm, Nat.add_assoc]⟩

/-- The cursor stands below this one. -/
def Under (a b : Cursor) : Prop := ∃ i m, a.node.children[i]? = some m ∧ b ∈ preorder ((a.node, i) :: a.above) m

theorem mem_preorder : c ∈ preorder above n ↔ c = ⟨n, above⟩ ∨ Under ⟨n, above⟩ c := by
  rw [preorder_eq, List.mem_cons, mem_preorders]
  simp [Under]

theorem self_mem_preorder (n : Node) (above : List (Node × Nat)) : ⟨n, above⟩ ∈ preorder above n :=
  mem_preorder.2 (Or.inl rfl)

theorem mem_preorder_of_child {m : Node} {i : Nat} (hi : n.children[i]? = some m)
    (h : c ∈ preorder ((n, i) :: above) m) : c ∈ preorder above n :=
  mem_preorder.2 (Or.inr ⟨i, m, hi, h⟩)

/-- What is visited from a visited place is visited. -/
theorem preorder_trans (hb : b ∈ preorder above n) (hc : c ∈ preorder b.above b.node) : c ∈ preorder above n := by
  induction n using Node.induct generalizing above with
  | step n ih =>
    rcases mem_preorder.1 hb with rfl | ⟨i, m, hi, hm⟩
    · exact hc
    · exact mem_preorder_of_child hi (ih m (List.mem_of_getElem? hi) hm)

theorem child_mem_preorder {m : Node} {i : Nat} (hc : c ∈ preorder above n) (hi : c.node.children[i]? = some m) :
    ⟨m, (c.node, i) :: c.above⟩ ∈ preorder above n :=
  preorder_trans hc (mem_preorder_of_child hi (self_mem_preorder _ _))

theorem inField?_mem_preorder {name : String} (ha : a ∈ preorder above n) (h : inField? name a = some b) :
    b ∈ preorder above n := by
  obtain ⟨i, m, -, hi, rfl⟩ := of_inField? h
  exact child_mem_preorder ha hi

/-- The way up from a visited place goes on from where the visit began. -/
theorem suffix_of_mem_preorder (h : c ∈ preorder above n) : above <:+ c.above := by
  induction n using Node.induct generalizing above with
  | step n ih =>
    rcases mem_preorder.1 h with rfl | ⟨i, m, hi, hm⟩
    · exact List.suffix_refl _
    · exact (List.suffix_cons _ _).trans (ih m (List.mem_of_getElem? hi) hm)

/-- A visited place is where the visit began, or a child of a visited place. -/
theorem cases_mem_preorder (h : c ∈ preorder above n) : c = ⟨n, above⟩ ∨
    ∃ p i rest, c.above = (p, i) :: rest ∧ ⟨p, rest⟩ ∈ preorder above n ∧ p.children[i]? = some c.node := by
  induction n using Node.induct generalizing above with
  | step n ih =>
    rcases mem_preorder.1 h with rfl | ⟨j, m, hj, hm⟩
    · exact Or.inl rfl
    · right
      rcases ih m (List.mem_of_getElem? hj) hm with rfl | ⟨p, i, rest, ha, hp, hi⟩
      · exact ⟨n, j, above, rfl, self_mem_preorder n above, hj⟩
      · exact ⟨p, i, rest, ha, mem_preorder_of_child hj hp, hi⟩

theorem parent_mem_preorder {tree p m : Node} {i : Nat} {rest : List (Node × Nat)}
    (h : ⟨m, (p, i) :: rest⟩ ∈ preorder [] tree) : ⟨p, rest⟩ ∈ preorder [] tree ∧ p.children[i]? = some m := by
  rcases cases_mem_preorder h with h | ⟨q, j, up, ha, hq, hj⟩
  · simp at h
  · obtain ⟨⟨rfl, rfl⟩, rfl⟩ : (p = q ∧ i = j) ∧ rest = up := by simpa using ha
    exact ⟨hq, hj⟩

theorem attached_of_mem_preorder {tree : Node} {c : Cursor} (h : c ∈ preorder [] tree) : Attached c := by
  obtain ⟨n, above⟩ := c
  cases above with
  | nil => exact attached_root n
  | cons x above => exact attached_child (parent_mem_preorder h).2

/-- Below different children the ways up are different. -/
theorem index_eq_of_mem_preorder {p x y : Node} {i j : Nat} (hx : c ∈ preorder ((p, i) :: above) x)
    (hy : c ∈ preorder ((p, j) :: above) y) : i = j := by
  have heq := List.IsSuffix.eq_of_length
    (List.suffix_of_suffix_length_le (suffix_of_mem_preorder hx) (suffix_of_mem_preorder hy) (by simp)) (by simp)
  simpa using heq

theorem not_under_self (c : Cursor) : ¬ Under c c := by
  rintro ⟨i, m, -, h⟩
  have := (suffix_of_mem_preorder h).length_le
  simp only [List.length_cons] at this
  omega

/-- The cursors stand below different children of one visited place, the first before the second. -/
def Beside (above : List (Node × Nat)) (n : Node) (a b : Cursor) : Prop :=
  ∃ p ∈ preorder above n, ∃ i j x y, i < j ∧ p.node.children[i]? = some x ∧ p.node.children[j]? = some y ∧
    a ∈ preorder ((p.node, i) :: p.above) x ∧ b ∈ preorder ((p.node, j) :: p.above) y

theorem Beside.of_child {m : Node} {i : Nat} (hi : n.children[i]? = some m) (h : Beside ((n, i) :: above) m a b) :
    Beside above n a b := by
  obtain ⟨p, hp, rest⟩ := h
  exact ⟨p, mem_preorder_of_child hi hp, rest⟩

/-- What holds among the places below each child, and of places below two children in order, holds in the order of the
visit. -/
theorem pairwise_preorders {R : Cursor → Cursor → Prop} {p : Node} {i : Nat} {ns : List Node}
    (hin : ∀ j m, ns[j]? = some m → (preorder ((p, i + j) :: above) m).Pairwise R)
    (hacross : ∀ j k x y, j < k → ns[j]? = some x → ns[k]? = some y →
      ∀ a ∈ preorder ((p, i + j) :: above) x, ∀ b ∈ preorder ((p, i + k) :: above) y, R a b) :
    (preorders p above i ns).Pairwise R := by
  induction ns generalizing i with
  | nil => exact List.Pairwise.nil
  | cons x ns ih =>
    have hnext : ∀ j, i + 1 + j = i + (j + 1) := fun j => by omega
    refine List.pairwise_append.2 ⟨hin 0 x rfl, ih (fun j m hj => ?_) (fun j k y z hjk hj hk => ?_), fun a ha b hb => ?_⟩
    · rw [hnext]
      exact hin (j + 1) m hj
    · rw [hnext, hnext]
      exact hacross (j + 1) (k + 1) y z (by omega) hj hk
    · obtain ⟨j, m, hj, hm⟩ := mem_preorders.1 hb
      rw [hnext] at hm
      exact hacross 0 (j + 1) x m (by omega) rfl hj a ha b hm

/-- A place that is visited later stands below an earlier one or beside it. -/
theorem pairwise_preorder (above : List (Node × Nat)) (n : Node) :
    (preorder above n).Pairwise fun a b => Under a b ∨ Beside above n a b := by
  induction n using Node.induct generalizing above with
  | step n ih =>
    rw [preorder_eq, List.pairwise_cons]
    constructor
    · intro c hc
      obtain ⟨j, m, hj, hm⟩ := mem_preorders.1 hc
      rw [Nat.zero_add] at hm
      exact Or.inl ⟨j, m, hj, hm⟩
    · refine pairwise_preorders (fun j m hj => ?_) (fun j k x y hjk hj hk a ha b hb => Or.inr ?_)
      · rw [Nat.zero_add]
        exact (ih m (List.mem_of_getElem? hj) _).imp fun h => h.imp_right (Beside.of_child hj)
      · rw [Nat.zero_add] at ha hb
        exact ⟨_, self_mem_preorder n above, j, k, x, y, hjk, hj, hk, ha, hb⟩

theorem Beside.ne (h : Beside above n a b) : a ≠ b := by
  rintro rfl
  obtain ⟨p, -, i, j, x, y, hij, -, -, hx, hy⟩ := h
  have := index_eq_of_mem_preorder hx hy
  omega

/-- No place is visited twice. -/
theorem nodup_preorder (above : List (Node × Nat)) (n : Node) : (preorder above n).Nodup := by
  refine (pairwise_preorder above n).imp fun h => ?_
  rcases h with h | h
  · rintro rfl
    exact not_under_self _ h
  · exact h.ne

theorem compare_preorder (ha : a ∈ preorder above n) (hb : b ∈ preorder above n) :
    a = b ∨ Under a b ∨ Under b a ∨ Beside above n a b ∨ Beside above n b a := by
  induction n using Node.induct generalizing above with
  | step n ih =>
    rcases mem_preorder.1 ha with rfl | ⟨i, x, hi, hx⟩ <;> rcases mem_preorder.1 hb with rfl | ⟨j, y, hj, hy⟩
    · exact Or.inl rfl
    · exact Or.inr (Or.inl ⟨j, y, hj, hy⟩)
    · exact Or.inr (Or.inr (Or.inl ⟨i, x, hi, hx⟩))
    · have hself := self_mem_preorder n above
      rcases Nat.lt_trichotomy i j with hij | rfl | hij
      · exact Or.inr (Or.inr (Or.inr (Or.inl ⟨_, hself, i, j, x, y, hij, hi, hj, hx, hy⟩)))
      · obtain rfl : x = y := by simpa [hi] using hj
        rcases ih x (List.mem_of_getElem? hi) hx hy with h | h | h | h | h
        · exact Or.inl h
        · exact Or.inr (Or.inl h)
        · exact Or.inr (Or.inr (Or.inl h))
        · exact Or.inr (Or.inr (Or.inr (Or.inl (h.of_child hi))))
        · exact Or.inr (Or.inr (Or.inr (Or.inr (h.of_child hi))))
      · exact Or.inr (Or.inr (Or.inr (Or.inr ⟨_, hself, j, i, y, x, hij, hj, hi, hy, hx⟩)))

end TimeLint.Cursor
