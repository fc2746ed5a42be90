import PropStories.Cli.Run
import PropStories.Program.Standard

/-!
# The program

Reads the disk, runs the command on it, and carries out what has changed. Other programs are not
started from here: a formatter command finds the standard programs and nothing else.
-/

namespace PropStories.Main

/-! ## The disk -/

def attempt {α : Type} (action : IO α) (otherwise : α) : IO α := do
  match ← action.toBaseIO with
  | .ok a => pure a
  | .error _ => pure otherwise

partial def readEntry (above : Place) (e : IO.FS.DirEntry) : IO (List (Place × Entry)) := do
  let place := above ++ [e.fileName]
  match (← e.path.symlinkMetadata).type with
  | .dir =>
      let below ← (← e.path.readDir).toList.mapM fun inner => attempt (readEntry place inner) []
      return (place, .directory) :: below.flatten
  | .file => return [(place, .file (.ofBytes (← IO.FS.readBinFile e.path).toList))]
  | _ => return []

def pathText (p : Place) : String := "/" ++ "/".intercalate p

def readAbove (place : Place) : IO (List (Place × Entry)) := do
  let found ← (Ignore.directoriesAbove place).mapM fun (dir, _) => do
    let files ← (Ignore.kinds true).mapM fun kind => do
      let bytes ← attempt (some <$> IO.FS.readBinFile (pathText (dir ++ kind))) none
      return bytes.toList.map fun b => (dir ++ kind, Entry.file (.ofBytes b.toList))
    return (if dir.isEmpty then [] else [(dir, Entry.directory)]) ++ files.flatten
  return (place, .directory) :: found.flatten

def readDisk : IO Disk := do
  let here ← IO.currentDir
  let place := (Path.mk here.toString).names
  let above ← readAbove place
  let below ← (← here.readDir).toList.mapM fun e => attempt (readEntry place e) []
  return ⟨above ++ below.flatten, place⟩

def readUserRules (here : Path) : IO Ignore.UserRules := do
  let readFile (path : Path) : IO (Option Content) := attempt (do
    let bytes ← IO.FS.readBinFile path.text
    return some (.ofBytes bytes.toList)) none
  let home := (← IO.getEnv "HOME").getD ""
  let custom := (← IO.getEnv "XDG_CONFIG_HOME").filter (· != "")
  let settings : Path := ⟨custom.getD (home ++ "/.config")⟩
  let own ← readFile ⟨home ++ "/.gitconfig"⟩
  let shared ← readFile (settings.join ⟨"git/config"⟩)
  let named := own.bind (Ignore.fileOfSettings? home)
  let named := named.or (shared.bind (Ignore.fileOfSettings? home))
  match ← readFile (named.getD (settings.join ⟨"git/ignore"⟩)) with
  | some content => return (Ignore.Rules.ofContent content).ofUser here
  | none => return Ignore.noUserRules

def carryOut (old new : Disk) : IO Unit := do
  for (place, entry) in old.entries do
    if new.at? place == none && entry != .directory then
      attempt (IO.FS.removeFile (pathText place)) ()
  for (place, entry) in new.entries.reverse do
    if old.at? place != some entry then
      match entry with
      | .directory => attempt (IO.FS.createDirAll (pathText place)) ()
      | .file c =>
          attempt (IO.FS.createDirAll (pathText place.dropLast)) ()
          attempt (IO.FS.writeBinFile (pathText place) ⟨c.toBytes.toArray⟩) ()

def touched (old new : Disk) : List Place :=
  (old.entries.filter fun (p, e) => new.at? p != some e).map (·.1) ++
    (new.entries.filter fun (p, _) => old.at? p == none).map (·.1)

/-! ## Output -/

def rank : LogLevel → Nat
  | .error => 1
  | .warn => 2
  | .info => 3
  | .debug => 4

def verbosity : Option String → Nat
  | some "off" => 0
  | some "error" => 1
  | some "warn" => 2
  | some "debug" | some "trace" => 4
  | _ => 3

def logLine (e : LogEvent) : String :=
  let level := match e.level with
    | .error => "ERROR"
    | .warn => " WARN"
    | .info => " INFO"
    | .debug => "DEBUG"
  " ".intercalate ([level, e.message] ++ e.fields.map fun (name, value) => name ++ "=" ++ value)

def printLog (es : List LogEvent) : IO Unit := do
  let wanted := verbosity (← IO.getEnv "STORYSYNC_LOG")
  for e in es do
    if rank e.level ≤ wanted then IO.eprintln (logLine e)

def isColored : IO Bool := do
  let force ← IO.getEnv "CLICOLOR_FORCE"
  let forbid ← IO.getEnv "NO_COLOR"
  let allow ← IO.getEnv "CLICOLOR"
  return Cli.Style.isWanted force forbid allow (← (← IO.getStdout).isTty)

def publish (old : Disk) (p : Cli.Progressed) : IO Unit := do
  carryOut old p.disk
  printLog p.log
  p.lines.forM fun line => IO.println line
  (← IO.getStdout).flush

def finish (old : Disk) (f : Cli.Finished) : IO UInt32 := do
  publish old ⟨f.disk, f.output, f.log⟩
  f.complaint.forM fun line => IO.eprintln line
  return f.status.toUInt32

partial def watch (w : Cli.Watching) (seen : Disk) : IO UInt32 := do
  IO.sleep w.debounce.toUInt32
  let now ← readDisk
  let root := (now.placeOf w.session.scanner.filter.root).toOption.getD now.here
  let mut w := w
  let mut disk := now
  for place in touched seen now do
    if root.isPrefixOf place then
      let (next, p, isBrokenOff) := w.touch disk ⟨pathText place⟩
      if isBrokenOff then return ← finish disk (Cli.Surroundings.breakOff p)
      publish disk p
      w := next
      disk := p.disk
  watch w disk

end PropStories.Main

open PropStories in
def main (arguments : List String) : IO UInt32 := do
  let disk ← Main.readDisk
  let userRules ← Main.readUserRules ⟨Main.pathText disk.here⟩
  let surroundings : Cli.Surroundings := ⟨Standard.programs, userRules, ← Main.isColored⟩
  match surroundings.run disk arguments with
  | .finished f => Main.finish disk f
  | .watching w p =>
      Main.publish disk p
      Main.watch w p.disk
