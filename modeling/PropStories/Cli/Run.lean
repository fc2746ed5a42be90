import PropStories.Cli.Command
import PropStories.Cli.Error
import PropStories.Cli.Report
import PropStories.Watch.Start

/-!
# Running commands

A command changes the disk and prints lines. All commands come to an end except watching, which
goes on with every path that is touched.
-/

namespace PropStories.Cli

structure Surroundings where
  programs : Programs
  userRules : Ignore.UserRules
  isColored : Bool

structure Progressed where
  disk : Disk
  lines : List String
  log : List LogEvent

structure Finished where
  disk : Disk
  output : List String
  complaint : List String
  status : Nat
  log : List LogEvent

structure Watching where
  session : Session
  printer : Printer
  known : KnownComponents
  /-- How long a path is left alone before it is looked at, in milliseconds. -/
  debounce : Nat

inductive Run where
  | finished (f : Finished)
  | watching (w : Watching) (p : Progressed)

namespace Surroundings

/-! ## Ends -/

def succeed (p : Progressed) : Finished := ⟨p.disk, p.lines, [], 0, p.log⟩

/-- The end of a program that breaks off. What the runtime says of it is not printed here. -/
def breakOff (p : Progressed) : Finished := ⟨p.disk, p.lines, [], 101, p.log⟩

def fail (s : Surroundings) (p : Progressed) (e : CommandError) : Finished :=
  ⟨p.disk, p.lines, [Style.alarm.paint s.isColored "Error:" ++ " " ++ e.message], e.status, p.log⟩

/-! ## Projects -/

def configure (d : Disk) (a : ProjectArguments) :
    Except ConfigError (ProjectConfig × List LogEvent) := do
  let (loaded, log) ← ProjectConfig.load d a.config
  let config := (loaded.override a.overrides).anchoredAt d.herePath
  match config.fault? with
  | some e => .error e
  | none => .ok (config, log)

structure Opened where
  session : Session
  config : ProjectConfig
  printer : Printer
  progress : Progressed

def openSession (s : Surroundings) (d : Disk) (a : ProjectArguments) (mode : WriteMode) :
    Except Finished Opened := do
  let start : Progressed := ⟨d, [], []⟩
  let (config, log) ← (configure d a).mapError fun e => s.fail start (.config e)
  let session ← (Session.ofConfig s.programs s.userRules d config mode).mapError fun e =>
    s.fail { start with log } (.scan e)
  let printer : Printer := ⟨s.isColored, config.paths.root⟩
  let lines := printer.session session config.formatterCommand.isSome
  .ok ⟨session, config, printer, ⟨d, lines, log⟩⟩

/-! ## Commands -/

def sync (s : Surroundings) (o : Opened) : Finished :=
  let begun := { o.progress with
    lines := o.progress.lines ++ [o.printer.paint .cyan "Scanning for components..."] }
  match o.session.syncAll begun.disk with
  | .error e => s.fail begun (.scan e)
  | .ok done =>
      let log := begun.log ++ done.log
      if done.isBrokenOff then breakOff ⟨done.disk, begun.lines, log⟩
      else if done.reports.isEmpty then
        succeed ⟨done.disk, begun.lines ++ [o.printer.paint .yellow "No components found."], log⟩
      else
        let failed := (done.reports.filter (·.isFailure)).length
        let lines := begun.lines ++ done.reports.flatMap o.printer.report ++
          o.printer.summary (done.reports.length - failed) failed
        if failed == 0 then succeed ⟨done.disk, lines, log⟩
        else s.fail ⟨done.disk, lines, log⟩ (.incomplete failed)

def watch (s : Surroundings) (o : Opened) : Run :=
  let begun := o.progress
  match o.session.known begun.disk with
  | .error e => .finished (s.fail begun (.scan e))
  | .ok (known, log) =>
      let paint := o.printer.paint
      let root := o.session.scanner.filter.root
      let counted := { begun with
        lines := begun.lines ++
          ["  Tracking " ++ paint .green (toString known.size) ++ " existing component(s)"]
        log := begun.log ++ log }
      match startWatching begun.disk root with
      | .error e => .finished (s.fail counted (.watch e))
      | .ok () =>
          let announced := ["", paint .cyan "Watching" ++ " " ++
            paint .yellow (o.printer.relative root) ++ " " ++
            paint .cyan "for changes... (Ctrl+C to stop)"]
          .watching ⟨o.session, o.printer, known, o.config.watch.debounce⟩
            { counted with lines := counted.lines ++ announced }

def init (s : Surroundings) (d : Disk) (output : Path) (overwrites : Bool) : Finished :=
  if d.exists? output && !overwrites then
    s.fail ⟨d, ["  Use --force to overwrite"], []⟩ (.alreadyExists output)
  else match d.write output (.text ProjectConfig.initialText) with
    | .error e => s.fail ⟨d, [], []⟩ (.disk e)
    | .ok written =>
        succeed ⟨written, [Style.green.paint s.isColored "✓" ++ " Created configuration file: " ++
          output.text], []⟩

def runCommand (s : Surroundings) (d : Disk) : Command → Run
  | .init output overwrites => .finished (s.init d output overwrites)
  | .sync project mode =>
      match s.openSession d project mode with
      | .error f => .finished f
      | .ok o => .finished (s.sync o)
  | .watch project mode =>
      match s.openSession d project mode with
      | .error f => .finished f
      | .ok o => s.watch o

def halt (s : Surroundings) (d : Disk) : Halt → Finished
  | .version => ⟨d, [versionText], [], 0, []⟩
  | .help command => ⟨d, help command, [], 0, []⟩
  | .nothing => ⟨d, [], help none, 2, []⟩
  | .wrong e =>
      ⟨d, [], [Style.boldRed.paint s.isColored "error:" ++ " " ++ e.message s.isColored, "",
        "For more information, try '--help'."], 2, []⟩

def run (s : Surroundings) (d : Disk) (arguments : List String) : Run :=
  match Command.ofArguments arguments with
  | .ok c => s.runCommand d c
  | .error h => .finished (s.halt d h)

end Surroundings

namespace Watching

/-- Handles the events of a touched path, each announced before it is handled. Also tells whether
the program has broken off. -/
def handle (w : Watching) (d : Disk) : List ComponentEvent → Progressed × Bool
  | [] => (⟨d, [], []⟩, false)
  | e :: es =>
      let done := w.session.dispatch d e
      let lines := w.printer.event e ++ done.reports.flatMap w.printer.report
      if done.isBrokenOff then (⟨done.disk, lines, done.log⟩, true)
      else
        let (rest, isBrokenOff) := w.handle done.disk es
        (⟨rest.disk, lines ++ rest.lines, done.log ++ rest.log⟩, isBrokenOff)

def touch (w : Watching) (d : Disk) (p : Path) : Watching × Progressed × Bool :=
  match w.session.notice d w.known p with
  | .error e =>
      (w, ⟨d, [w.printer.paint .red "Scan error:" ++ " " ++ w.printer.relative p ++ ": " ++
        (CommandError.scan e).message], []⟩, false)
  | .ok noticed =>
      let (done, isBrokenOff) := w.handle d noticed.events
      ({ w with known := noticed.known }, { done with log := noticed.log ++ done.log }, isBrokenOff)

end Watching

end PropStories.Cli
