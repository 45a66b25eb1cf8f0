import TimeLint.CommandLine.Parse
import TimeLint.Proofs.Discovery

/-! The commands take the same arguments: a command line that is accepted for one command is accepted for
the other, with the same directory and format. -/

namespace TimeLint.CommandLine

theorem act_target {c : Command} (c' : Command) {t t' : Target} {use : Use}
    (h : (targetHandler c).act t use = .ok t') : (targetHandler c').act t use = .ok t' := by
  simp only [targetHandler] at h ⊢
  split at h
  · obtain ⟨format, hf, ht⟩ := bind_eq_ok.1 h
    rw [mapError_eq_ok] at hf
    exact bind_eq_ok.2 ⟨format, mapError_eq_ok.2 hf, ht⟩
  · cases h

theorem acts_target {c : Command} (c' : Command) {uses : List Use} {t t' : Target}
    (h : uses.foldlM (targetHandler c).act t = .ok t') : uses.foldlM (targetHandler c').act t = .ok t' := by
  induction uses generalizing t with
  | nil => exact h
  | cons use uses ih =>
    rw [List.foldlM_cons] at h ⊢
    obtain ⟨s, hs, h⟩ := bind_eq_ok.1 h
    exact bind_eq_ok.2 ⟨s, act_target c' hs, ih h⟩

theorem switch_target {c : Command} (c' : Command) {p : Place Target} {item : Item} {rest : List Item}
    {r : Place Target × Nat} (h : (targetHandler c).switch p item rest = .ok r) :
    (targetHandler c').switch p item rest = .ok r := by
  unfold Handler.switch at h ⊢
  split at h
  · obtain ⟨⟨used, taken⟩, hu, h⟩ := bind_eq_ok.1 h
    obtain ⟨state, hs, h⟩ := bind_eq_ok.1 h
    exact bind_eq_ok.2 ⟨(used, taken), mapError_eq_ok.2 (mapError_eq_ok.1 hu), bind_eq_ok.2 ⟨state, acts_target c' hs, h⟩⟩
  · exact h

theorem walk_target {c : Command} (c' : Command) {p r : Place Target} {items : List Item}
    (h : (targetHandler c).walk p items = .ok r) : (targetHandler c').walk p items = .ok r := by
  induction hn : items.length using Nat.strongRecOn generalizing p items with
  | _ n ih =>
    subst hn
    cases items with
    | nil =>
      rw [Handler.walk] at h ⊢
      exact h
    | cons item rest =>
      rw [Handler.walk] at h ⊢
      split at h
      · rename_i hswitch
        rw [if_pos hswitch]
        exact h
      · rename_i hswitch
        rw [if_neg hswitch]
        split at h
        · rename_i hitem
          rw [if_pos hitem]
          obtain ⟨⟨p', n⟩, hs, h⟩ := bind_eq_ok.1 h
          refine bind_eq_ok.2 ⟨(p', n), switch_target c' hs, ih _ ?_ h rfl⟩
          simp only [List.length_drop, List.length_cons]
          omega
        · rename_i hitem
          rw [if_neg hitem]
          obtain ⟨⟨p', n⟩, hs, h⟩ := bind_eq_ok.1 h
          refine bind_eq_ok.2 ⟨(p', n), hs, ?_⟩
          cases n with
          | zero =>
            refine ih _ ?_ h rfl
            simp only [List.length_drop, List.length_cons]
            omega
          | succ n =>
            refine ih _ ?_ h rfl
            simp only [List.length_drop, List.length_cons]
            omega

theorem run_target {c : Command} (c' : Command) {t : Target} {arguments : List String} {r : Place Target}
    (h : (targetHandler c).run t arguments = .ok r) : (targetHandler c').run t arguments = .ok r := by
  unfold Handler.run at h ⊢
  obtain ⟨its, hi, h⟩ := bind_eq_ok.1 h
  exact bind_eq_ok.2 ⟨its, mapError_eq_ok.2 (mapError_eq_ok.1 hi), walk_target c' h⟩

theorem items_text {switches : Switches} {arguments : List String} {its : List Item}
    (h : items switches arguments = .ok its) : its.map (·.text) = arguments := by
  induction arguments generalizing its with
  | nil =>
    obtain rfl : [] = its := by simpa [items] using h
    rfl
  | cons s rest ih =>
    rw [items] at h
    split at h
    · obtain rfl := by simpa using h
      simp [Function.comp_def]
    · obtain ⟨m, hm, h⟩ := bind_eq_ok.1 h
      obtain ⟨more, hr, h⟩ := bind_eq_ok.1 h
      obtain rfl : ⟨s, m⟩ :: more = its := by simpa [pure, Except.pure] using h
      simp [ih hr]

/-- A command word takes all that follows it. -/
theorem walk_command {r : Reading} {name : String} (its : List Item) :
    programHandler.walk ⟨r, true, []⟩ (⟨name, .plain⟩ :: its) =
      (programHandler.take r (name :: its.map (·.text))).map fun state => ⟨state, false, []⟩ := by
  have hpos : programHandler.positional ⟨r, true, []⟩ (⟨name, .plain⟩ :: its) =
      (programHandler.take r (name :: its.map (·.text))).map fun state => (⟨state, false, []⟩, its.length + 1) := by
    have hwidth : programHandler.width (⟨name, .plain⟩ :: its) = some (its.length + 1) := rfl
    simp only [Handler.positional, hwidth, List.take_succ_cons, List.take_length, List.map_cons]
    cases programHandler.take r (name :: its.map (·.text)) <;> rfl
  rw [Handler.walk, hpos]
  cases programHandler.take r (name :: its.map (·.text)) with
  | error stop => split <;> rfl
  | ok state =>
    split
    · simp [Except.map, bind, Except.bind, pure, Except.pure]
    · rw [if_neg (by simp [Item.isSwitch])]
      simp only [Except.map, bind, Except.bind, List.drop_length]
      rw [Handler.walk]
      rfl

theorem items_command (c : Command) (rest : List String) :
    items programSwitches (c.name :: rest) = do return ⟨c.name, .plain⟩ :: (← items programSwitches rest) := by
  have hdash : (c.name == "--") = false := by cases c <;> decide
  have hmark : mark programSwitches c.name = .ok .plain := by cases c <;> simp [mark, Command.name]
  rw [items, hdash, hmark]
  rfl

theorem take_command (c : Command) (rest : List String) :
    programHandler.take ⟨false, none, []⟩ (c.name :: rest) =
      ((targetHandler c).run ⟨".", none⟩ rest).map fun place => ⟨false, some (c, place.state), place.extra⟩ := by
  have hcommand : commandOf c.name = .ok c := by cases c <;> rfl
  simp only [programHandler, hcommand, Except.mapError, bind, Except.bind]
  cases (targetHandler c).run ⟨".", none⟩ rest <;> rfl

theorem run_command (c : Command) (rest : List String) {place : Place Reading} :
    programHandler.run ⟨false, none, []⟩ (c.name :: rest) = .ok place ↔
      (∃ its, items programSwitches rest = .ok its) ∧
        ∃ target, (targetHandler c).run ⟨".", none⟩ rest = .ok target ∧
          place = ⟨⟨false, some (c, target.state), target.extra⟩, false, []⟩ := by
  have hwalk : ∀ its, items programSwitches rest = .ok its →
      programHandler.walk ⟨⟨false, none, []⟩, true, []⟩ (⟨c.name, .plain⟩ :: its) =
        ((targetHandler c).run ⟨".", none⟩ rest).map fun target =>
          ⟨⟨false, some (c, target.state), target.extra⟩, false, []⟩ := by
    intro its hi
    rw [walk_command, items_text hi, take_command]
    cases (targetHandler c).run ⟨".", none⟩ rest <;> rfl
  have hrun : programHandler.run ⟨false, none, []⟩ (c.name :: rest) =
      programHandler.refuse (items programSwitches (c.name :: rest)) >>=
        programHandler.walk ⟨⟨false, none, []⟩, true, []⟩ := rfl
  rw [hrun, bind_eq_ok, items_command]
  constructor
  · rintro ⟨its0, hi, h⟩
    obtain ⟨its, hits, heq⟩ := bind_eq_ok.1 (mapError_eq_ok.1 hi)
    obtain rfl : ⟨c.name, .plain⟩ :: its = its0 := by simpa [pure, Except.pure] using heq
    rw [hwalk its hits] at h
    cases hr : (targetHandler c).run ⟨".", none⟩ rest with
    | error stop => simp [hr, Except.map] at h
    | ok target =>
      rw [hr] at h
      exact ⟨⟨its, hits⟩, target, rfl, by simpa [Except.map] using h.symm⟩
  · rintro ⟨⟨its, hits⟩, target, hr, rfl⟩
    refine ⟨⟨c.name, .plain⟩ :: its, mapError_eq_ok.2 ?_, ?_⟩
    · rw [hits]
      rfl
    · rw [hwalk its hits, hr]
      rfl

theorem parse_command (c : Command) (rest : List String) {request : Request} :
    parse (c.name :: rest) = .ok request ↔
      (∃ its, items programSwitches rest = .ok its) ∧
        ∃ place, (targetHandler c).run ⟨".", none⟩ rest = .ok place ∧ place.extra = [] ∧
          request = ⟨false, c, place.state.root, place.state.format⟩ := by
  unfold parse
  rw [bind_eq_ok]
  constructor
  · rintro ⟨place, hp, h⟩
    obtain ⟨hi, target, hr, rfl⟩ := (run_command c rest).1 hp
    simp only [List.nil_append] at h
    cases he : target.extra with
    | nil =>
      rw [he] at h
      exact ⟨hi, target, hr, he, by simpa [pure, Except.pure] using h.symm⟩
    | cons x xs => simp [he] at h
  · rintro ⟨hi, target, hr, he, rfl⟩
    refine ⟨_, (run_command c rest).2 ⟨hi, target, hr, rfl⟩, ?_⟩
    simp [he, pure, Except.pure]

/-- What `fix` accepts, `check` accepts as well. -/
theorem parse_check_of_fix {rest : List String} {request : Request} (h : parse ("fix" :: rest) = .ok request) :
    request.command = .fix ∧ parse ("check" :: rest) = .ok { request with command := .check } := by
  obtain ⟨hi, place, hr, he, rfl⟩ := (parse_command .fix rest).1 h
  exact ⟨rfl, (parse_command .check rest).2 ⟨hi, place, run_target .check hr, he, rfl⟩⟩

end TimeLint.CommandLine
