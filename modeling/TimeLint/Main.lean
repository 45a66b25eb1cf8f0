import TimeLint.Program
import TimeLint.Ruby.Program

/-!
The program on a real disk. The directory to be checked is read into a `Disk`, the program is run on it,
and the files that it changed are written back.
-/

namespace TimeLint.Main

/-- Files whose content the program may look at. -/
def isRead (name : String) : Bool :=
  name.endsWith ".rb" || name == Scan.ignoreName || name == Settings.fileName

/-- The real path behind a path, if something is there. -/
def real? (path : String) : IO (Option String) := do
  try return some (← IO.FS.realPath path).toString
  catch _ => return none

/-- Adds what stands under a directory entry. A link leads to the place behind it. -/
partial def addEntry (d : Disk) (e : IO.FS.DirEntry) : IO Disk := do
  let place := Path.names e.path.toString
  match (← e.path.symlinkMetadata).type with
  | .dir =>
    let mut d := d.create place .directory
    for inner in ← e.path.readDir do
      d ← addEntry d inner
    return d
  | .symlink =>
    match ← real? e.path.toString with
    | none => return d.create place (.link "")
    | some target =>
      let linked := d.create place (.link target)
      if isRead e.fileName && !(← e.path.isDir) then
        return linked.create (Path.names target) (.file (← IO.FS.readBinFile target).data.toList)
      else return linked
  | .file =>
    let content ← if isRead e.fileName then pure (← IO.FS.readBinFile e.path).data.toList else pure []
    return d.create place (.file content)
  | .other => return d

/-- The disk as far as a request can see it. -/
def snapshot (path : Path) : IO Disk := do
  match ← real? path.text with
  | none => return ⟨[]⟩
  | some text =>
    let real ← IO.FS.realPath text
    let place := Path.names text
    if !(← real.isDir) then return (⟨[]⟩ : Disk).create place (.file [])
    let mut d := (⟨[]⟩ : Disk).create place .directory
    if place != path.tidy then
      d := d.create path.tidy (.link text)
    for e in ← real.readDir do
      d ← addEntry d e
    return d

def writeBack (before after : Disk) : IO Unit := do
  for (place, e) in after.entries do
    match e with
    | .file content =>
      if before.entry? place != some e then
        IO.FS.writeBinFile place.text ⟨content.toArray⟩
    | _ => pure ()

def code : Program.Ending → UInt32
  | .returned n => n.toUInt32
  | .exited n => n.toUInt32
  | .crashed _ => 1

end TimeLint.Main

open TimeLint in
def main (arguments : List String) : IO UInt32 := do
  let directory := Path.names (← IO.currentDir).toString
  let home := Path.names ((← IO.getEnv "HOME").getD "/")
  let env : Program.Environment := ⟨directory, home⟩
  let d ← match CommandLine.parse arguments with
    | .error _ => pure ⟨[]⟩
    | .ok request =>
      match Program.expand env request.root with
      | none => pure ⟨[]⟩
      | some path => Main.snapshot path
  let effect := Program.invoke Ruby.parse env arguments d
  Main.writeBack d effect.disk
  (← IO.getStdout).putStr effect.output
  (← IO.getStderr).putStr effect.errors
  return Main.code effect.ending
