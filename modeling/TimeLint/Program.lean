import TimeLint.CommandLine.Help
import TimeLint.Run

/-!
The program as a function from a disk and arguments to what it prints, how it ends, and the disk it
leaves. It returns 2 if the directory or its settings cannot be used or a file failed, 1 if offenses
remain, and 0 otherwise.
-/

namespace TimeLint.Program

/-- Where the program runs: the directory that relative paths start from, and the user's own. -/
structure Environment where
  directory : Path
  home : Path
deriving Repr, DecidableEq, Inhabited

/-- What breaks the program off: the directory cannot be made out, a run is broken off, or a record
cannot be written. -/
inductive Crash where
  | directory
  | run (fault : Run.Fault)
  | record
deriving Repr, DecidableEq, Inhabited

inductive Ending where
  | returned (code : Nat)
  | exited (code : Nat)
  | crashed (crash : Crash)
deriving Repr, DecidableEq, Inhabited

structure Effect where
  disk : Disk
  output : String
  errors : String
  ending : Ending
deriving Repr, DecidableEq, Inhabited

/-- The path with the user's own directory in place of a tilde. -/
def expand (e : Environment) (s : String) : Option Path :=
  match Path.isAbsolute s, Path.names s with
  | false, name :: rest =>
    if name == "~" then some (e.home ++ rest)
    else if name.toList.head? == some '~' then none
    else some (e.directory ++ name :: rest)
  | _, _ => some (Path.join e.directory s)

def exitCode (r : Run.Result) : Nat :=
  if !r.failed.isEmpty then 2 else if r.offenseCount != 0 then 1 else 0

/-- The counts and names that follow a report. -/
def summary (fix : Bool) (r : Run.Result) : List String :=
  let count := toString r.correctedCount
  (if fix && r.correctedCount != 0 then ["corrected: " ++ count] else [])
    ++ r.failed.map ("failed: " ++ ·)

def logLines (verbose : Bool) (events : List Log.Event) : List String :=
  (Log.shown verbose events).map (·.line)

open CommandLine (unlines)

/-- A run with its report. -/
def report (parse : Parser) (request : CommandLine.Request) (settings : Settings) (log : List Log.Event)
    (root : Path) (d : Disk) : Effect :=
  let fix := request.command == .fix
  let outcome := Run.check parse fix settings root d
  let logged := logLines request.verbose (log ++ outcome.log)
  match outcome.result with
  | .error f => ⟨outcome.disk, "", unlines logged, .crashed (.run f)⟩
  | .ok result =>
    let written := Report.write (request.format.getD settings.format) result.reports
    match written.count with
    | none => ⟨outcome.disk, written.output, unlines logged, .crashed .record⟩
    | some _ =>
      ⟨outcome.disk, written.output, unlines (logged ++ summary fix result), .returned (exitCode result)⟩

/-- Whether faulty settings are the user's error, which is reported, or break the program off. -/
def isReported : Settings.Fault → Bool
  | .malformed _ _ _ => true
  | .invalid _ _ => true
  | _ => false

def execute (parse : Parser) (e : Environment) (request : CommandLine.Request) (d : Disk) : Effect :=
  match (expand e request.root).bind d.resolve with
  | none => ⟨d, "", "", .crashed .directory⟩
  | some root =>
    if !d.isDirectory root then ⟨d, "", unlines ["error: not a directory: " ++ root.text], .returned 2⟩
    else
      match Settings.load d root with
      | .error f =>
        if isReported f then ⟨d, "", unlines ["error: " ++ f.message], .returned 2⟩
        else ⟨d, "", "", .crashed (.run (.settings f))⟩
      | .ok (settings, log) => report parse request settings log root d

def invoke (parse : Parser) (e : Environment) (arguments : List String) (d : Disk) : Effect :=
  match CommandLine.parse arguments with
  | .error (.help level) => ⟨d, CommandLine.help level, "", .exited 0⟩
  | .error (.refused level problem) => ⟨d, "", CommandLine.refusal level problem, .exited 2⟩
  | .ok request => execute parse e request d

end TimeLint.Program
