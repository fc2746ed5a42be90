import PropStories.Program.Basic
import PropStories.Program.Script

/-!
# The standard programs

A few programs that are found everywhere: those that print, copy their input, or always end in the
same way, and the shell that runs scripts of them.
-/

namespace PropStories.Standard

/-! ## Escapes -/

def octalDigits (cs : List Char) : List Char :=
  (cs.take 3).takeWhile fun c => '0' ≤ c && c ≤ '7'

def octalByte (ds : List Char) : UInt8 :=
  UInt8.ofNat (ds.foldl (fun n c => 8 * n + (c.toNat - '0'.toNat)) 0)

def escapedByte? : Char → Option UInt8
  | 'a' => some 7
  | 'b' => some 8
  | 't' => some 9
  | 'n' => some 10
  | 'v' => some 11
  | 'f' => some 12
  | 'r' => some 13
  | '\\' => some 92
  | _ => none

def bytesOf (cs : List Char) : List UInt8 := (String.ofList cs).toUTF8.toList

/-- The bytes of a text with escapes; an octal number takes a zero in front if `zeroFirst`. -/
def unescape (zeroFirst : Bool) : Nat → List Char → List UInt8
  | _, [] => []
  | 0, cs => bytesOf cs
  | fuel + 1, '\\' :: c :: rest =>
      let digits := if zeroFirst then octalDigits rest else octalDigits (c :: rest)
      if zeroFirst && c == '0' then
        octalByte digits :: unescape zeroFirst fuel (rest.drop digits.length)
      else if !zeroFirst && !digits.isEmpty then
        octalByte digits :: unescape zeroFirst fuel ((c :: rest).drop digits.length)
      else match escapedByte? c with
        | some b => b :: unescape zeroFirst fuel rest
        | none => bytesOf ['\\', c] ++ unescape zeroFirst fuel rest
  | fuel + 1, c :: rest => bytesOf [c] ++ unescape zeroFirst fuel rest

/-! ## Programs that print -/

def echo (arguments : List String) : List UInt8 :=
  let say (ws : List String) :=
    let cs := (" ".intercalate ws).toList
    unescape true cs.length cs
  match arguments with
  | "-n" :: ws => say ws
  | ws => say ws ++ [10]

/-- One use of a format, with the arguments that it leaves. -/
def formatOnce : Nat → List Char → List String → List UInt8 × List String
  | _, [], ws => ([], ws)
  | 0, _, ws => ([], ws)
  | fuel + 1, '%' :: '%' :: rest, ws =>
      let (out, left) := formatOnce fuel rest ws
      (37 :: out, left)
  | fuel + 1, '%' :: _ :: rest, ws =>
      let (out, left) := formatOnce fuel rest ws.tail
      (bytesOf (ws.headD "").toList ++ out, left)
  | fuel + 1, cs, ws =>
      let plain := cs.takeWhile (· != '%')
      let run := if plain.isEmpty then cs.take 1 else plain
      let (out, left) := formatOnce fuel (cs.drop run.length) ws
      (unescape false run.length run ++ out, left)

def formatAll (format : List Char) : Nat → List String → List UInt8
  | 0, _ => []
  | fuel + 1, ws =>
      let (out, left) := formatOnce (format.length + 1) format ws
      if left.isEmpty || left.length == ws.length then out else out ++ formatAll format fuel left

def printf : List String → List UInt8
  | [] => []
  | format :: ws => formatAll format.toList (ws.length + 1) ws

/-! ## Programs on files -/

def line (s : String) : List UInt8 := s.toUTF8.toList ++ [10]

def cause : DiskError → String
  | .notFound => "No such file or directory"
  | .notADirectory => "Not a directory"
  | .isADirectory => "Is a directory"
  | e => e.message

def contents (d : Disk) : List String → List UInt8 × List UInt8
  | [] => ([], [])
  | f :: fs =>
      let (out, bad) := contents d fs
      match d.find ⟨f⟩ with
      | .ok (.file c) => (c.toBytes ++ out, bad)
      | .ok .directory => (out, line ("cat: " ++ f ++ ": " ++ cause .isADirectory) ++ bad)
      | .error e => (out, line ("cat: " ++ f ++ ": " ++ cause e) ++ bad)

def utility? (d : Disk) (input : List UInt8) (program : String) (arguments : List String) :
    Option ProgramRun :=
  match program with
  | "true" | ":" => some ⟨d, .success, [], []⟩
  | "false" => some ⟨d, .failure, [], []⟩
  | "echo" => some ⟨d, .success, echo arguments, []⟩
  | "printf" => some ⟨d, .success, printf arguments, []⟩
  | "pwd" => some ⟨d, .success, line ("/" ++ "/".intercalate d.here), []⟩
  | "cat" =>
      if arguments.isEmpty then some ⟨d, .success, input, []⟩
      else
        let (out, bad) := contents d arguments
        some ⟨d, if bad.isEmpty then .success else .failure, out, bad⟩
  | "touch" =>
      some ⟨arguments.foldl (fun d f =>
        if d.exists? ⟨f⟩ then d else (d.write ⟨f⟩ (.text "")).toOption.getD d) d, .success, [], []⟩
  | "rm" =>
      some ⟨arguments.foldl (fun d f => (d.removeFile ⟨f⟩).toOption.getD d) d, .success, [], []⟩
  | _ => none

/-! ## The shell -/

def signals : List Signal :=
  [⟨1, "HUP"⟩, ⟨2, "INT"⟩, ⟨3, "QUIT"⟩, ⟨4, "ILL"⟩, ⟨5, "TRAP"⟩, ⟨6, "ABRT"⟩, ⟨7, "BUS"⟩,
    ⟨8, "FPE"⟩, ⟨9, "KILL"⟩, ⟨10, "USR1"⟩, ⟨11, "SEGV"⟩, ⟨12, "USR2"⟩, ⟨13, "PIPE"⟩, ⟨14, "ALRM"⟩,
    ⟨15, "TERM"⟩]

def statusOf : ProgramEnd → Nat
  | .exited status => status
  | .killed signal => 128 + signal.number

structure ShellState where
  disk : Disk
  /-- The parameters, the name of the script first. -/
  parameters : List String
  /-- The status of the last command. -/
  status : Nat
  output : List UInt8
  complaint : List UInt8
  isOver : Bool
  /-- The signal that the script has sent to itself, if any. -/
  killer : Option Signal

namespace ShellState

/-- What a script sees as its own process number. -/
def processNumber : String := "1"

def value (s : ShellState) (name : Char) : String :=
  if name.isDigit then s.parameters.getD (name.toNat - '0'.toNat) ""
  else if name == '#' then toString (s.parameters.length - 1)
  else if name == '?' then toString s.status
  else if name == '$' then processNumber
  else " ".intercalate s.parameters.tail

def pieceText (s : ShellState) : WordPiece → List Char
  | .text cs => cs
  | .parameter name _ => (s.value name).toList

def wordText (s : ShellState) (w : Word) : String := String.ofList (w.pieces.flatMap s.pieceText)

def expand (s : ShellState) (w : Word) : List String :=
  match w.pieces with
  | [.parameter '@' true] => s.parameters.tail
  | [.parameter name false] =>
      ((s.value name).splitToList fun c => c == ' ' || c == '\t' || c == '\n').filter (· != "")
  | _ => [s.wordText w]

def say (s : ShellState) (text : String) : List UInt8 :=
  line (s.parameters.headD "sh" ++ ": 1: " ++ text)

inductive Target where
  | stream (s : Stream)
  | file (path : Path)

structure Targets where
  output : Target
  complaint : Target

def Targets.set (t : Targets) (s : Stream) (x : Target) : Targets :=
  match s with
  | .output => { t with output := x }
  | .complaint => { t with complaint := x }

def Targets.get (t : Targets) : Stream → Target
  | .output => t.output
  | .complaint => t.complaint

def append (d : Disk) (p : Path) (bytes : List UInt8) : Disk :=
  match d.find p with
  | .ok (.file c) => (d.write p (.ofBytes (c.toBytes ++ bytes))).toOption.getD d
  | _ => d

structure Opened where
  disk : Disk
  targets : Targets
  input : List UInt8

def openAll (s : ShellState) : Opened → List Redirection → Except String Opened
  | o, [] => .ok o
  | o, .toStream stream target :: rest =>
      s.openAll { o with targets := o.targets.set stream (o.targets.get target) } rest
  | o, .toFile stream file appends :: rest =>
      let path : Path := ⟨s.wordText file⟩
      let opened := if appends && o.disk.isFile path then .ok o.disk
        else o.disk.write path (.text "")
      match opened with
      | .ok d => s.openAll { o with disk := d, targets := o.targets.set stream (.file path) } rest
      | .error .notFound => .error ("cannot create " ++ path.text ++ ": Directory nonexistent")
      | .error e => .error ("cannot create " ++ path.text ++ ": " ++ cause e)
  | o, .fromFile file :: rest =>
      let path : Path := ⟨s.wordText file⟩
      match o.disk.find path with
      | .ok (.file c) => s.openAll { o with input := c.toBytes } rest
      | .ok .directory => s.openAll o rest
      | .error e =>
          .error ("cannot open " ++ path.text ++ ": " ++
            if e == .notFound then "No such file" else cause e)

def send (s : ShellState) (t : Target) (bytes : List UInt8) : ShellState :=
  match t with
  | .stream .output => { s with output := s.output ++ bytes }
  | .stream .complaint => { s with complaint := s.complaint ++ bytes }
  | .file path => { s with disk := append s.disk path bytes }

/-- The signal and the process that arguments name; without a name the signal is `TERM`. -/
def killed? : List String → Option (Signal × String)
  | ["-s", signal, process] => (signals.find? (·.name == signal)).map (·, process)
  | [option, process] =>
      (signals.find? fun s => option == "-" ++ s.name || option == "-" ++ toString s.number).map
        (·, process)
  | [process] => some (⟨15, "TERM"⟩, process)
  | _ => none

/-- Sends a signal; a script can only reach itself. -/
def kill (s : ShellState) (arguments : List String) : ShellState :=
  match killed? arguments with
  | some (signal, process) =>
      if process == processNumber then { s with killer := some signal, isOver := true }
      else { s with status := 1 }
  | none => { s with status := 1 }

def call (s : ShellState) (o : Opened) : List String → ShellState
  | [] => { s with disk := o.disk, status := 0 }
  | "exit" :: arguments =>
      let status := match arguments.head?.bind String.toNat? with
        | some n => n % 256
        | none => s.status
      { s with disk := o.disk, status, isOver := true }
  | "kill" :: arguments => kill { s with disk := o.disk } arguments
  | "cd" :: place :: _ =>
      if o.disk.isDirectory ⟨place⟩ then
        { s with
          disk := { o.disk with here := (o.disk.placeOf ⟨place⟩).toOption.getD o.disk.here }
          status := 0 }
      else
        let failed := { s with disk := o.disk, status := 2 }
        failed.send o.targets.complaint (s.say ("cd: can't cd to " ++ place))
  | program :: arguments =>
      match utility? o.disk o.input program arguments with
      | some run =>
          let ran := { s with disk := run.disk, status := statusOf run.ending }
          (ran.send o.targets.output run.output).send o.targets.complaint run.complaint
      | none =>
          let failed := { s with disk := o.disk, status := 127 }
          failed.send o.targets.complaint (s.say (program ++ ": not found"))

def step (s : ShellState) (c : ScriptCommand) : ShellState :=
  let isDue := match c.joint with
    | .always => true
    | .onSuccess => s.status == 0
    | .onFailure => s.status != 0
  if s.isOver || !isDue then s
  else
    let plain : Opened := ⟨s.disk, ⟨.stream .output, .stream .complaint⟩, []⟩
    match s.openAll plain c.redirections with
    | .ok o => s.call o (c.words.flatMap s.expand)
    | .error text => { s with status := 2, complaint := s.complaint ++ s.say text }

end ShellState

def runScript (d : Disk) (script : String) (parameters : List String) : ProgramRun :=
  let start : ShellState := ⟨d, parameters, 0, [], [], false, none⟩
  match Script.ofText? script.toList with
  | none => ⟨d, .exited 2, [], start.say "Syntax error"⟩
  | some commands =>
      let last := commands.foldl (·.step ·) start
      ⟨last.disk, (last.killer.map .killed).getD (.exited last.status), last.output,
        last.complaint⟩

def shell (d : Disk) : List String → ProgramRun
  | ["-c"] => ⟨d, .exited 2, [], line "sh: 0: -c requires an argument"⟩
  | "-c" :: script :: [] => runScript d script ["sh"]
  | "-c" :: script :: parameters => runScript d script parameters
  | file :: parameters =>
      match d.readText ⟨file⟩ with
      | .ok script => runScript d script (file :: parameters)
      | .error _ => ⟨d, .exited 2, [], line ("sh: 0: cannot open " ++ file ++ ": No such file")⟩
  | [] => ⟨d, .success, [], []⟩

/-! ## Starting programs -/

/-- The name of a program without the directory that holds the standard ones. -/
def plainName (program : String) : String :=
  match Text.afterStart? "/usr/bin/".toList program.toList,
      Text.afterStart? "/bin/".toList program.toList with
  | some name, _ | _, some name => String.ofList name
  | none, none => program

def launch (d : Disk) (program : String) (arguments : List String) :
    Except DiskError ProgramRun :=
  let name := plainName program
  if name == "sh" then .ok (shell d arguments)
  else match (if name == ":" then none else utility? d [] name arguments) with
    | some run => .ok run
    | none =>
        if name.toList.contains '/' then
          match d.find ⟨name⟩ with
          | .ok _ => .error .permissionDenied
          | .error e => .error e
        else .error .notFound

def programs : Programs := fun d directory program arguments =>
  if (program :: arguments).any (·.toList.contains '\x00') then
    .error (.other "nul byte found in provided data")
  else match d.find directory, d.placeOf directory with
    | .ok .directory, .ok place =>
        (launch { d with here := place } program arguments).map fun run =>
          { run with disk := { run.disk with here := d.here } }
    | .ok _, _ => .error .notADirectory
    | .error e, _ => .error e

end PropStories.Standard
