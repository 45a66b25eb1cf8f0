import TimeLint.Offense.Check
import TimeLint.Settings

/-!
A run over the files of a directory. A file that cannot be read or is not valid Ruby is listed as failed
and does not stop the run. With `fix` a file is written only after its corrected text has been checked.
An outcome holds the disk as the run leaves it, also where the run is broken off.
-/

namespace TimeLint.Run

def speaker : String := "runner"

/-- Why a file has no report. -/
inductive FileFault where
  | access (fault : Disk.Fault)
  | broken (fault : SyntaxFault)
  | edits (refusal : Edit.Refusal)
deriving Repr, DecidableEq, Inhabited

/-- A report on a file, with the text to put in its place if there is one. -/
structure Checked where
  report : FileReport
  corrected : Option Bytes
deriving Repr, DecidableEq, Inhabited

/-- Checks a source. With `fix` the report is on the corrected source. -/
def checkBytes (parse : Parser) (fix : Bool) (name : String) (source : Bytes) : Except FileFault Checked := do
  let result ← (checkStrict parse source).mapError .broken
  if !fix || result.edits.isEmpty then return ⟨{ path := name, diagnostics := result.diagnostics }, none⟩
  let corrected ← (Edit.apply source result.edits).mapError .edits
  let remaining ← (checkStrict parse corrected).mapError .broken
  return ⟨{ path := name, diagnostics := remaining.diagnostics, corrected := result.edits.length }, some corrected⟩

/-- Checks a file: its report, and the disk afterwards. -/
def checkFile (parse : Parser) (fix : Bool) (d : Disk) (path : Path) (name : String) :
    Except FileFault (FileReport × Disk) := do
  let source ← (d.read path).mapError .access
  let checked ← checkBytes parse fix name source
  match checked.corrected with
  | none => return (checked.report, d)
  | some corrected => return (checked.report, d.write path corrected)

structure Result where
  reports : List FileReport
  failed : List String
deriving Repr, DecidableEq, Inhabited

namespace Result

def offenseCount (r : Result) : Nat := r.reports.foldl (fun n f => n + f.diagnostics.length) 0

def correctedCount (r : Result) : Int := r.reports.foldl (fun n f => n + f.corrected) 0

end Result

/-- How far a run has come. -/
structure Progress where
  disk : Disk
  log : List Log.Event
  result : Result
deriving Repr, DecidableEq, Inhabited

namespace Progress

def addReport (p : Progress) (disk : Disk) (report : FileReport) : Progress :=
  let amount := toString report.corrected
  let log : List Log.Event :=
    if report.corrected == 0 then []
    else [⟨.info, speaker, "Corrected " ++ amount ++ " offense(s) in " ++ report.path⟩]
  { disk, log := p.log ++ log, result := { p.result with reports := p.result.reports ++ [report] } }

def addFailure (p : Progress) (name message : String) : Progress :=
  { p with
    log := p.log ++ [⟨.error, speaker, "Failed to check " ++ name ++ ": " ++ message⟩]
    result := { p.result with failed := p.result.failed ++ [name] } }

/-- One more file. Edits that cannot be applied break the run off. -/
def step (parse : Parser) (fix : Bool) (root : Path) (p : Progress) (path : Path) :
    Except Edit.Refusal Progress :=
  let name := Scan.relative root path
  match checkFile parse fix p.disk path name with
  | .ok (report, disk) => .ok (p.addReport disk report)
  | .error (.access f) => .ok (p.addFailure name (f.message path))
  | .error (.broken f) => .ok (p.addFailure name f.message)
  | .error (.edits r) => .error r

end Progress

/-- Checks files one after another, up to the first whose edits cannot be applied. -/
def checkFiles (parse : Parser) (fix : Bool) (root : Path) :
    List Path → Progress → Progress × Option Edit.Refusal
  | [], p => (p, none)
  | path :: rest, p =>
    match p.step parse fix root path with
    | .ok next => checkFiles parse fix root rest next
    | .error r => (p, some r)

/-- Why a run is broken off. -/
inductive Fault where
  | settings (fault : Settings.Fault)
  | scan (fault : Scan.Fault)
  | edits (refusal : Edit.Refusal)
deriving Repr, DecidableEq, Inhabited

structure Outcome where
  disk : Disk
  log : List Log.Event
  result : Except Fault Result
deriving Inhabited

/-- Checks the files of a directory that the settings choose. -/
def check (parse : Parser) (fix : Bool) (settings : Settings) (root : Path) (d : Disk) : Outcome :=
  match Scan.find d root settings.toSelection with
  | .error f => ⟨d, [], .error (.scan f)⟩
  | .ok found =>
    match checkFiles parse fix root found.files ⟨d, found.log, ⟨[], []⟩⟩ with
    | (p, none) => ⟨p.disk, p.log, .ok p.result⟩
    | (p, some r) => ⟨p.disk, p.log, .error (.edits r)⟩

/-- The settings given, or else those kept in the directory, with what is to be logged about them. -/
def settingsFor (given : Option Settings) (root : Path) (d : Disk) :
    Except Settings.Fault (Settings × List Log.Event) :=
  match given with
  | some settings => .ok (settings, [])
  | none => Settings.load d root

/-- Checks the files of a directory with the settings given, or else with those kept in it. -/
def checkWith (parse : Parser) (fix : Bool) (given : Option Settings) (root : Path) (d : Disk) : Outcome :=
  match settingsFor given root d with
  | .error f => ⟨d, [], .error (.settings f)⟩
  | .ok (settings, log) =>
    let outcome := check parse fix settings root d
    { outcome with log := log ++ outcome.log }

def checkWithOwnSettings (parse : Parser) (fix : Bool) (root : Path) (d : Disk) : Outcome :=
  checkWith parse fix none root d

end TimeLint.Run
