import Mathlib
import TimeLint.Proofs.FixThenCheck
import TimeLint.Proofs.RealPlaces
import TimeLint.Proofs.TomlDocument
import TimeLint.Proofs.Utf8

/-! Faulty settings. A settings file that is a text, without a number that is too long, gives settings or a fault that
names the file, and such a fault is printed and ends the program with 2. A file that is no text, or a number that is
too long, breaks the program off. -/

namespace TimeLint

namespace Settings

variable {d : Disk} {root place path : Path} {content : Bytes}

/-- The fault says which settings file is not well formed, or what it may not say. -/
inductive Names (path : Path) : Fault → Prop
  | malformed (text : List Char) (fault : Toml.Fault) : Names path (.malformed path text fault)
  | invalid (issues : List Data.Issue) : Names path (.invalid path issues)

/-- What becomes of a text. -/
theorem parse_text (path : Path) (s : String) :
    (∃ settings, parse path (Bytes.ofString s) = .ok settings) ∨
      (∃ f, parse path (Bytes.ofString s) = .error f ∧ Names path f) ∨
      ∃ n, parse path (Bytes.ofString s) = .error (.tooLong n) ∧ Toml.HoldsLong n s.toList := by
  unfold parse
  rw [Bytes.decode_eq_some_iff.2 rfl]
  dsimp only
  split
  · rename_i digits unread hfault
    refine .inr (.inr ⟨digits, rfl, ?_⟩)
    exact ((Toml.reads_statements _ _ _).long digits unread hfault).of_unifyNewlines
  · exact .inr (.inl ⟨_, rfl, .malformed _ _⟩)
  · rename_i rows _
    cases hvalue : ofValue (.table rows) with
    | ok settings => exact .inl ⟨settings, rfl⟩
    | error issues => exact .inr (.inl ⟨_, rfl, .invalid issues⟩)

theorem parse_of_not_text (path : Path) (h : ∀ s, content ≠ Bytes.ofString s) : parse path content = .error .notText := by
  have hnone : content.decode = none := by
    cases hdecode : content.decode with
    | none => rfl
    | some s => exact absurd (Bytes.decode_eq_some_iff.1 hdecode) (h s)
  rw [parse, hnone]

/-- A setting that is a number of too many digits, whatever they are, is refused for its length. -/
theorem parse_long (path : Path) {c : Char} {ds : List Char} (hd : ∀ x ∈ c :: ds, x.isDigit = true) (hc : c ≠ '0')
    (hlimit : Toml.digitLimit < (c :: ds).length) :
    parse path (Bytes.ofString (String.ofList ('x' :: '=' :: c :: ds))) = .error (.tooLong (c :: ds).length) := by
  have hplain : ∀ x ∈ 'x' :: '=' :: c :: ds, x ≠ '\r' := by
    intro x hx
    rcases List.mem_cons.1 hx with rfl | hx
    · decide
    · rcases List.mem_cons.1 hx with rfl | hx
      · decide
      · exact Toml.ne_of_isDigit (hd x hx) (by decide)
  rw [parse, Bytes.decode_eq_some_iff.2 rfl]
  simp only [String.toList_ofList, Toml.unifyNewlines_of_plain hplain, Toml.parse_long hd hc hlimit, Toml.fault]

theorem load_of_file (h : d.locate (root ++ [fileName]) = .ok (place, .file content)) :
    load d root = (parse (root ++ [fileName]) content).map fun settings => (settings, []) := by
  have hread := Disk.read_of_locate h
  have hfile : d.isFile (root ++ [fileName]) = true := by rw [Disk.isFile, h]
  simp only [load, hread, hfile]
  cases parse (root ++ [fileName]) content <;> rfl

end Settings

namespace Program

open CommandLine (unlines)

variable {parse : Parser} {e : Environment} {d : Disk}

theorem execute_of_fault {request : CommandLine.Request} {root : Path} {f : Settings.Fault}
    (hroot : (expand e request.root).bind d.resolve = some root) (hdir : d.isDirectory root = true)
    (hload : Settings.load d root = .error f) : execute parse e request d =
      if isReported f then ⟨d, "", unlines ["error: " ++ f.message], .returned 2⟩
      else ⟨d, "", "", .crashed (.run (.settings f))⟩ := by
  unfold execute
  simp [hroot, hdir, hload]

theorem reported_of_names {path : Path} {f : Settings.Fault} (h : Settings.Names path f) : isReported f = true := by
  cases h <;> rfl

/-- With a settings file in the directory, the program works with its settings, prints an error that names the file and
returns 2, or breaks off. It breaks off if the file is no text; of a text only if it holds a number that is too long,
as it does on any setting that is one. -/
theorem settings_outcomes (parse : Parser) (e : Environment) (request : CommandLine.Request) (d : Disk)
    (root place : Path) (content : Bytes) (hroot : (expand e request.root).bind d.resolve = some root)
    (hdir : d.isDirectory root = true)
    (hfile : d.locate (root ++ [Settings.fileName]) = .ok (place, .file content)) :
    ((∃ s settings, content = Bytes.ofString s ∧ Settings.load d root = .ok (settings, []) ∧
        execute parse e request d = report parse request settings [] root d) ∨
      (∃ s f, content = Bytes.ofString s ∧ Settings.load d root = .error f ∧
        Settings.Names (root ++ [Settings.fileName]) f ∧
        execute parse e request d = ⟨d, "", unlines ["error: " ++ f.message], .returned 2⟩) ∨
      ((∀ s, content ≠ Bytes.ofString s) ∧ Settings.load d root = .error .notText ∧
        execute parse e request d = ⟨d, "", "", .crashed (.run (.settings .notText))⟩) ∨
      ∃ s n, content = Bytes.ofString s ∧ Toml.HoldsLong n s.toList ∧ Settings.load d root = .error (.tooLong n) ∧
        execute parse e request d = ⟨d, "", "", .crashed (.run (.settings (.tooLong n)))⟩) ∧
    ∀ c ds, (∀ x ∈ c :: ds, x.isDigit = true) → c ≠ '0' → Toml.digitLimit < (c :: ds).length →
      content = Bytes.ofString (String.ofList ('x' :: '=' :: c :: ds)) →
      Settings.load d root = .error (.tooLong (c :: ds).length) := by
  have hload := Settings.load_of_file hfile
  refine ⟨?_, fun c ds hd hc hlimit hcontent => ?_⟩
  · by_cases htext : ∃ s, content = Bytes.ofString s
    · obtain ⟨s, rfl⟩ := htext
      rcases Settings.parse_text (root ++ [Settings.fileName]) s with ⟨settings, hp⟩ | ⟨f, hp, hf⟩ | ⟨n, hp, hn⟩
      · rw [hp] at hload
        exact .inl ⟨s, settings, rfl, hload, execute_of_parts hroot hdir hload⟩
      · rw [hp] at hload
        refine .inr (.inl ⟨s, f, rfl, hload, hf, ?_⟩)
        rw [execute_of_fault hroot hdir hload, if_pos (reported_of_names hf)]
      · rw [hp] at hload
        exact .inr (.inr (.inr ⟨s, n, rfl, hn, hload, execute_of_fault hroot hdir hload⟩))
    · have hno : ∀ s, content ≠ Bytes.ofString s := fun s hs => htext ⟨s, hs⟩
      rw [Settings.parse_of_not_text _ hno] at hload
      exact .inr (.inr (.inl ⟨hno, hload, execute_of_fault hroot hdir hload⟩))
  · rw [hload, hcontent, Settings.parse_long _ hd hc hlimit]
    rfl

/-- A directory with a settings file. -/
def settingsDisk (content : Bytes) : Disk := ⟨[(["w"], .directory), (["w", Settings.fileName], .file content)]⟩

theorem stands_settings (content : Bytes) :
    (settingsDisk content).Stands ["w"] .directory ∧
      (settingsDisk content).Stands (["w"] ++ [Settings.fileName]) (.file content) := by
  have htop : (settingsDisk content).Stands [] .directory := .top
  have hroot : (settingsDisk content).Stands ["w"] .directory := htop.snoc (by decide) rfl
  exact ⟨hroot, hroot.snoc (by decide) rfl⟩

theorem load_settings (content : Bytes) : Settings.load (settingsDisk content) ["w"] =
    (Settings.parse (["w"] ++ [Settings.fileName]) content).map fun settings => (settings, []) :=
  Settings.load_of_file ((stands_settings content).2.locate (by simp))

theorem not_text (s : String) : [0xff] ≠ Bytes.ofString s := by
  intro hs
  have hdecode := Bytes.decode_eq_some_iff.2 hs
  simp [Bytes.decode, Bytes.decodeChars, Bytes.headChar?] at hdecode

/-- A file that is no text and a number that is too long are not reported as errors in the settings. -/
theorem settings_break_off : Settings.load (settingsDisk [0xff]) ["w"] = .error .notText ∧
    Settings.load (settingsDisk (Bytes.ofString (String.ofList ('x' :: '=' :: '1' :: List.replicate 4300 '1')))) ["w"] =
      .error (.tooLong 4301) ∧
    isReported .notText = false ∧ isReported (.tooLong 4301) = false := by
  have hones : ∀ n, Toml.digitLimit < n + 1 →
      Settings.load (settingsDisk (Bytes.ofString (String.ofList ('x' :: '=' :: '1' :: List.replicate n '1')))) ["w"] =
        .error (.tooLong (n + 1)) := by
    intro n hn
    have hdigits : ∀ x ∈ '1' :: List.replicate n '1', x.isDigit = true := by
      intro x hx
      rw [← List.replicate_succ] at hx
      rw [List.eq_of_mem_replicate hx]
      decide
    rw [load_settings, Settings.parse_long _ hdigits (by decide) (by simpa using hn)]
    simp [Except.map]
  refine ⟨?_, hones 4300 (by decide), rfl, rfl⟩
  rw [load_settings, Settings.parse_of_not_text _ not_text]
  rfl

theorem undecodable_settings :
    execute (fun _ => default) ⟨["w"], []⟩ ⟨false, .check, "/w", none⟩ (settingsDisk [0xff]) =
      ⟨settingsDisk [0xff], "", "", .crashed (.run (.settings .notText))⟩ := by
  have hroot : (expand ⟨["w"], []⟩ "/w").bind (settingsDisk [0xff]).resolve = some ["w"] := by
    have hexpand : expand ⟨["w"], []⟩ "/w" = some ["w"] := by cbv
    rw [hexpand]
    exact Disk.resolve_of_locate ((stands_settings _).1.locate (by simp))
  have hdir : (settingsDisk [0xff]).isDirectory ["w"] = true := by
    rw [Disk.isDirectory, (stands_settings _).1.locate (by simp)]
  have hfile := (stands_settings [0xff]).2.locate (by simp)
  have houtcomes := (settings_outcomes (fun _ => default) ⟨["w"], []⟩ ⟨false, .check, "/w", none⟩ (settingsDisk [0xff])
    ["w"] _ _ hroot hdir hfile).1
  rcases houtcomes with ⟨s, -, hs, -⟩ | ⟨s, -, hs, -⟩ | ⟨-, -, h⟩ | ⟨s, -, hs, -⟩
  · exact absurd hs (not_text s)
  · exact absurd hs (not_text s)
  · exact h
  · exact absurd hs (not_text s)

end Program

end TimeLint
