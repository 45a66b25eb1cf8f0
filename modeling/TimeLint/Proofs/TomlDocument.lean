import TimeLint.Proofs.TomlReaders
import TimeLint.Toml.Document

/-! Readers of keys, values and statements. They see parts of the text, as the readers of scalars do; no change to a
table fails for the length of a number, so a document is refused for it only where its text holds a number that long.
A value that is such a number is refused. -/

namespace TimeLint.Toml

theorem reads_keyPart (cs : List Char) : Reads Prod.snd cs (keyPart cs) := by
  unfold keyPart
  split
  · exact .of_suffix (reads_literalBody _ _ _) (List.suffix_cons _ _)
  · exact .of_suffix (reads_basicString _ _) (List.suffix_cons _ _)
  · split
    · exact .ok (List.dropWhile_suffix _)
    · exact .fault (by simp)
  · exact .fault (by simp)

theorem reads_keyFrom (fuel : Nat) (cs : List Char) : Reads Prod.snd cs (keyFrom fuel cs) := by
  induction fuel generalizing cs with
  | zero => exact .fault (by simp)
  | succ fuel ih =>
    unfold keyFrom
    refine .bind (reads_keyPart cs) fun part _ => ?_
    refine .of_suffix ?_ (List.dropWhile_suffix isSpace)
    dsimp only
    split
    · rename_i more hmore
      rw [hmore]
      refine .of_suffix (.bind (ih _) fun _ _ => .ok List.suffix_rfl) ?_
      exact (List.dropWhile_suffix _).trans (List.suffix_cons _ _)
    · exact .ok List.suffix_rfl

theorem reads_readKey (cs : List Char) : Reads Prod.snd cs (readKey cs) := reads_keyFrom _ cs

theorem reads_skipLines (fuel : Nat) (cs : List Char) : Reads id cs (skipLines fuel cs) := by
  induction fuel generalizing cs with
  | zero => exact .ok List.suffix_rfl
  | succ fuel ih =>
    unfold skipLines
    refine .of_suffix (.bind (reads_skipComment _) fun rest _ => ?_) (List.dropWhile_suffix isSpaceOrNewline)
    split
    · exact .ok List.suffix_rfl
    · exact ih rest

theorem reads_skipBlanks (cs : List Char) : Reads id cs (skipBlanks cs) := reads_skipLines _ cs

/-- The change does not fail for the length of a number. -/
def Unrelated {α : Type} (r : Except Problem α) : Prop := ∀ n, r ≠ .error (.tooLong n)

namespace Unrelated

variable {α β : Type}

theorem ok {a : α} : Unrelated (.ok a) := by
  intro n h
  cases h

theorem error {problem : Problem} (h : ∀ n, problem ≠ .tooLong n) : Unrelated (.error problem : Except Problem α) := by
  intro n hn
  cases hn
  exact h n rfl

theorem bind {x : Except Problem α} {f : α → Except Problem β} (h : Unrelated x) (hf : ∀ a, Unrelated (f a)) :
    Unrelated (x >>= f) := by
  cases x with
  | error problem =>
    intro n hn
    cases hn
    exact h n rfl
  | ok a => exact hf a

end Unrelated

theorem Reads.placed {α : Type} {cs : List Char} {r : Except Problem α} (h : Unrelated r) :
    Reads (fun _ => cs) cs (Toml.placed cs r) := by
  cases r with
  | ok a => exact .ok List.suffix_rfl
  | error problem => exact .fault fun n hn => h n (by rw [hn])

namespace Table

theorem update_unrelated {lists : Bool} {change : Table → Except Problem Table} (h : ∀ t, Unrelated (change t))
    (key : Key) (t : Table) : Unrelated (update lists change key t) := by
  induction key generalizing t with
  | nil => exact h t
  | cons name key ih =>
    unfold update
    split
    · exact .bind (ih _) fun _ => .ok
    · exact .bind (ih _) fun _ => .ok
    · split
      · exact .bind (ih _) fun _ => .ok
      · exact .error (by simp)
    · exact .error (by simp)

theorem insert_unrelated {duplicate : Problem} (h : ∀ n, duplicate ≠ .tooLong n) (name : String) (v : Data.Value)
    (t : Table) : Unrelated (insert duplicate name v t) := by
  unfold insert
  split
  · exact .error h
  · exact .ok

theorem extend_unrelated (name : String) (t : Table) : Unrelated (extend name t) := by
  unfold extend
  split
  · exact .ok
  · exact .ok
  · exact .error (by simp)

end Table

theorem inlineRow_unrelated (marks : Flags) (t : Table) (key : Key) (v : Data.Value) :
    Unrelated (inlineRow marks t key v) := by
  unfold inlineRow
  split
  · exact .error (by simp)
  · exact Table.update_unrelated (Table.insert_unrelated (by simp) _ _) _ _

namespace State

theorem addRow_unrelated (s : State) (key : Key) (v : Data.Value) : Unrelated (s.addRow key v) := by
  unfold addRow
  dsimp only
  split
  · exact .error (by simp)
  · split
    · exact .error (by simp)
    · exact .bind (Table.update_unrelated (Table.insert_unrelated (by simp) _ _) _ _) fun _ => .ok

theorem openTable_unrelated (s : State) (key : Key) : Unrelated (s.openTable key) := by
  unfold openTable
  split
  · exact .error (by simp)
  · exact .bind (Table.update_unrelated (fun _ => .ok) _ _) fun _ => .ok

theorem extendList_unrelated (s : State) (key : Key) : Unrelated (s.extendList key) := by
  unfold extendList
  split
  · exact .error (by simp)
  · exact .bind (Table.update_unrelated (Table.extend_unrelated _) _ _) fun _ => .ok

end State

/-- What the readers of values do at one depth. -/
structure ReadsValues (depth : Nat) : Prop where
  value : ∀ cs, Reads Prod.snd cs (value depth cs)
  elements : ∀ cs, Reads Prod.snd cs (elements depth cs)
  inlineRows : ∀ marks t cs, Reads Prod.snd cs (inlineRows depth marks t cs)
  pair : ∀ cs, Reads (fun x => x.2.2) cs (pair depth cs)

namespace ReadsValues

variable {depth : Nat}

theorem value_succ (h : ReadsValues depth) (cs : List Char) : Reads Prod.snd cs (Toml.value (depth + 1) cs) := by
  unfold Toml.value
  split
  · exact (reads_stringValue? (by assumption)).map fun _ => List.suffix_rfl
  · split
    · exact .ok (wordValue?_suffix (by assumption))
    · rename_i rest _ _
      refine .of_suffix (.bind (reads_skipBlanks rest) fun inner _ => ?_) (List.suffix_cons _ _)
      split
      · exact .ok (List.suffix_cons _ _)
      · exact .bind (h.elements _) fun _ _ => .ok List.suffix_rfl
    · rename_i rest _ _
      have hblank : rest.dropWhile isSpace <:+ '\x7b' :: rest := (List.dropWhile_suffix _).trans (List.suffix_cons _ _)
      refine .of_suffix ?_ hblank
      split
      · rename_i after hafter
        rw [hafter]
        exact .ok (List.suffix_cons _ _)
      · exact .bind (h.inlineRows _ _ _) fun _ _ => .ok List.suffix_rfl
    · exact reads_plainValue _

theorem elements_succ (h : ReadsValues depth) (cs : List Char) : Reads Prod.snd cs (Toml.elements (depth + 1) cs) := by
  unfold Toml.elements
  refine .bind (h.value cs) fun v _ => .bind (reads_skipBlanks v.2) fun rest _ => ?_
  split
  · exact .ok (List.suffix_cons _ _)
  · refine .of_suffix (.bind (reads_skipBlanks _) fun next _ => ?_) (List.suffix_cons _ _)
    split
    · exact .ok (List.suffix_cons _ _)
    · exact .bind (h.elements _) fun _ _ => .ok List.suffix_rfl
  · exact .fault (by simp)

theorem inlineRows_succ (h : ReadsValues depth) (marks : Flags) (t : Table) (cs : List Char) :
    Reads Prod.snd cs (Toml.inlineRows (depth + 1) marks t cs) := by
  unfold Toml.inlineRows
  refine .bind (h.pair cs) fun row _ => .bind (.placed (inlineRow_unrelated _ _ _ _)) fun t' _ => ?_
  refine .of_suffix ?_ (List.dropWhile_suffix isSpace)
  split
  · rename_i after hafter
    rw [hafter]
    exact .ok (List.suffix_cons _ _)
  · rename_i more hmore
    rw [hmore]
    exact .of_suffix (h.inlineRows _ _ _) ((List.dropWhile_suffix _).trans (List.suffix_cons _ _))
  · exact .fault (by simp)

theorem pair_succ (h : ReadsValues depth) (cs : List Char) : Reads (fun x => x.2.2) cs (Toml.pair (depth + 1) cs) := by
  unfold Toml.pair
  refine .bind (reads_readKey cs) fun key _ => ?_
  dsimp only
  split
  · rename_i more hmore
    rw [hmore]
    refine .of_suffix (.bind (h.value _) fun _ _ => .ok List.suffix_rfl) ?_
    exact (List.dropWhile_suffix _).trans (List.suffix_cons _ _)
  · exact .fault (by simp)

end ReadsValues

theorem readsValues (depth : Nat) : ReadsValues depth := by
  -- the four readers call one another, each time one depth further down
  induction depth with
  | zero =>
    exact ⟨fun _ => .fault (by simp), fun _ => .fault (by simp), fun _ _ _ => .fault (by simp), fun _ => .fault (by simp)⟩
  | succ depth ih => exact ⟨ih.value_succ, ih.elements_succ, ih.inlineRows_succ, ih.pair_succ⟩

theorem reads_header (s : State) (cs : List Char) : Reads Prod.snd cs (header s cs) := by
  unfold header
  split
  · rename_i rest
    have hblank : rest.dropWhile isSpace <:+ '[' :: '[' :: rest :=
      (List.dropWhile_suffix _).trans (List.suffix_append ['[', '['] rest)
    refine .of_suffix (.bind (reads_readKey _) fun key _ => ?_) hblank
    refine .bind (.placed (State.extendList_unrelated _ _)) fun s' _ => ?_
    split
    · rename_i after hafter
      rw [hafter]
      exact .ok (List.suffix_append [']', ']'] after)
    · exact .fault (by simp)
  · have hblank : (cs.drop 1).dropWhile isSpace <:+ cs := (List.dropWhile_suffix _).trans (List.drop_suffix _ _)
    refine .of_suffix (.bind (reads_readKey _) fun key _ => ?_) hblank
    refine .bind (.placed (State.openTable_unrelated _ _)) fun s' _ => ?_
    split
    · rename_i after hafter
      rw [hafter]
      exact .ok (List.suffix_cons _ _)
    · exact .fault (by simp)

theorem reads_statement (s : State) (cs : List Char) : Reads Prod.snd cs (statement s cs) := by
  unfold statement
  split
  · exact .ok List.suffix_rfl
  · split
    · refine .bind ((readsValues _).pair _) fun row _ => .bind (.placed (State.addRow_unrelated _ _ _)) fun s' _ => ?_
      exact .ok List.suffix_rfl
    · split
      · exact reads_header _ _
      · split
        · exact .ok List.suffix_rfl
        · exact .fault (by simp)

theorem reads_statements (fuel : Nat) (s : State) (cs : List Char) : Reads (fun _ => []) cs (statements fuel s cs) := by
  induction fuel generalizing s cs with
  | zero => exact .ok List.nil_suffix
  | succ fuel ih =>
    unfold statements
    refine .of_suffix ?_ (List.dropWhile_suffix isSpace)
    split
    · exact .ok List.nil_suffix
    · rename_i rest hrest
      rw [hrest]
      exact .of_suffix (ih s rest) (List.suffix_cons _ _)
    · refine .bind (reads_statement s _) fun x _ => ?_
      refine .of_suffix (.bind (reads_skipComment _) fun rest _ => ?_) (List.dropWhile_suffix isSpace)
      split
      · exact .ok List.nil_suffix
      · exact .of_suffix (ih _ _) (List.suffix_cons _ _)
      · exact .fault (by simp)

theorem unifyNewlines_of_plain {cs : List Char} (h : ∀ c ∈ cs, c ≠ '\r') : unifyNewlines cs = cs := by
  fun_induction unifyNewlines cs with
  | case1 rest ih => exact absurd rfl (h '\r' (by simp))
  | case2 c rest hne ih => rw [ih fun x hx => h x (by simp [hx])]
  | case3 => rfl

/-- What stands on one line stands there before newlines are unified. -/
theorem prefix_of_unifyNewlines {run cs : List Char} (hrun : ∀ c ∈ run, c ≠ '\n') (h : run <+: unifyNewlines cs) :
    run <+: cs := by
  fun_induction unifyNewlines cs generalizing run with
  | case1 rest ih =>
    cases run with
    | nil => exact List.nil_prefix
    | cons c run => exact absurd (List.cons_prefix_cons.1 h).1 (hrun c (by simp))
  | case2 c rest hne ih =>
    cases run with
    | nil => exact List.nil_prefix
    | cons c' run =>
      obtain ⟨rfl, hrest⟩ := List.cons_prefix_cons.1 h
      exact List.cons_prefix_cons.2 ⟨rfl, ih (fun x hx => hrun x (by simp [hx])) hrest⟩
  | case3 => exact h

theorem infix_of_unifyNewlines {run cs : List Char} (hrun : ∀ c ∈ run, c ≠ '\n') (h : run <:+: unifyNewlines cs) :
    run <:+: cs := by
  fun_induction unifyNewlines cs with
  | case1 rest ih =>
    rcases List.infix_cons_iff.1 h with hfront | hlater
    · have hnil : run = [] := by
        cases run with
        | nil => rfl
        | cons c run => exact absurd (List.cons_prefix_cons.1 hfront).1 (hrun c (by simp))
      rw [hnil]
      exact List.nil_infix
    · exact (ih hlater).trans (List.suffix_append ['\r', '\n'] rest).isInfix
  | case2 c rest hne ih =>
    rcases List.infix_cons_iff.1 h with hfront | hlater
    · cases run with
      | nil => exact List.nil_infix
      | cons c' run =>
        obtain ⟨rfl, hrest⟩ := List.cons_prefix_cons.1 hfront
        have hlater := prefix_of_unifyNewlines (fun x hx => hrun x (by simp [hx])) hrest
        exact (List.cons_prefix_cons.2 ⟨rfl, hlater⟩).isInfix
    · exact (ih hlater).trans (List.suffix_cons _ _).isInfix
  | case3 => exact h

theorem HoldsLong.of_unifyNewlines {n : Nat} {cs : List Char} (h : HoldsLong n (unifyNewlines cs)) : HoldsLong n cs := by
  obtain ⟨run, hrun, hmem, hcount⟩ := h.run
  have hline : ∀ c ∈ run, c ≠ '\n' := by
    intro c hc hn
    rcases hmem c hc with hdigit | hunderscore
    · rw [hn] at hdigit
      exact absurd hdigit (by decide)
    · rw [hn] at hunderscore
      exact absurd hunderscore (by decide)
  exact ⟨h.limit, run, infix_of_unifyNewlines hline hrun, hmem, hcount⟩

section

variable {c : Char} {ds : List Char} (hd : ∀ x ∈ c :: ds, x.isDigit = true) (hc : c ≠ '0')
  (hlimit : digitLimit < (c :: ds).length)

include hd hc hlimit

theorem value_long (depth : Nat) : value (depth + 1) (c :: ds) = fault (.tooLong (c :: ds).length) (c :: ds) := by
  have hdigit := hd c (by simp)
  have hne : ∀ k : Char, k.isDigit = false → c ≠ k := fun k hk => ne_of_isDigit hdigit hk
  have hstring : stringValue? (c :: ds) = none := by simp [stringValue?, hne]
  have hword : wordValue? wordValues (c :: ds) = none := by
    simp [wordValue?, wordValues, (hne 't' (by decide)).symm, (hne 'f' (by decide)).symm]
  unfold value
  simp only [hstring]
  split
  · rename_i found hfound
    simp [hword] at hfound
  · rename_i heq
    exact absurd (List.cons.inj heq).1 (hne _ (by decide))
  · rename_i heq
    exact absurd (List.cons.inj heq).1 (hne _ (by decide))
  · exact plainValue_long hd hc hlimit

/-- A document that gives a setting such a number is refused for its length. -/
theorem parse_long : parse ('x' :: '=' :: c :: ds) = fault (.tooLong (c :: ds).length) (c :: ds) := by
  have hx : isBare 'x' = true := by decide
  have hkey : readKey ('x' :: '=' :: c :: ds) = .ok (["x"], '=' :: c :: ds) := by
    have hequals : isBare '=' = false := by decide
    have hspace : isSpace '=' = false := by decide
    simp [readKey, keyFrom, keyPart, hx, hequals, hspace, bind, Except.bind, pure, Except.pure]
  have hblank : (c :: ds).dropWhile isSpace = c :: ds := by
    have hdigit := hd c (by simp)
    simp [isSpace, ne_of_isDigit hdigit]
  have hpair : ∀ depth, pair (depth + 2) ('x' :: '=' :: c :: ds) = fault (.tooLong (c :: ds).length) (c :: ds) := by
    intro depth
    rw [pair, hkey]
    simp only [bind, Except.bind, hblank, value_long hd hc hlimit depth]
    rfl
  have hstatement : ∀ s, statement s ('x' :: '=' :: c :: ds) = fault (.tooLong (c :: ds).length) (c :: ds) := by
    intro s
    simp only [statement, hx, Bool.true_or, if_true, hpair]
    rfl
  have hfront : ('x' :: '=' :: c :: ds).dropWhile isSpace = 'x' :: '=' :: c :: ds := rfl
  simp only [parse, statements, hfront]
  change statement _ ('x' :: '=' :: c :: ds) >>= _ = _
  rw [hstatement]
  rfl

end

end TimeLint.Toml
