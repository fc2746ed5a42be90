import PropStories.Cli.Style
import PropStories.Session

/-!
# What is printed about a session
-/

namespace PropStories.Cli

structure Printer where
  isColored : Bool
  root : Path

namespace Printer

def paint (p : Printer) (s : Style) (text : String) : String := s.paint p.isColored text

def relative (p : Printer) (path : Path) : String := ((path.from? p.root).getD path).text

def tick (p : Printer) : String := p.paint .green "✓"

def dash (p : Printer) : String := p.paint .dimmed "-"

/-! ## Sessions -/

def session (p : Printer) (s : Session) (hasFormatter : Bool) : List String :=
  let settings := s.keeper.settings
  let yellow := p.paint .yellow
  [p.paint .title "storysync",
    "  Components: " ++ yellow (p.relative settings.componentsRoot),
    "  Stories:    " ++ yellow (p.relative settings.storiesRoot),
    "  Extensions: " ++ yellow (", ".intercalate settings.extensions) ++
      "  Story: " ++ yellow settings.storyEnding ++
      "  Default export: " ++ yellow settings.defaultStory] ++
    (if s.keeper.mode == .preview then ["  " ++ yellow "Dry run: no files will be written"]
      else []) ++
    (if hasFormatter then [] else ["  " ++ p.paint .dimmed "Formatter disabled"])

/-! ## Events -/

def event (p : Printer) (e : ComponentEvent) : List String :=
  ["", p.paint .cyan ("Component " ++ e.kind.label ++ ":") ++ " " ++ p.relative e.path]

def separator (p : Printer) : String := p.paint .dimmed (String.ofList (List.replicate 60 '─'))

def write (p : Printer) (w : WriteResult) (action : String) : List String :=
  match w with
  | .written path bytes =>
      [p.tick ++ " " ++ action ++ ": " ++ p.relative path ++ " (" ++ toString bytes ++ " bytes)"]
  | .deleted path => [p.tick ++ " " ++ action ++ ": " ++ p.relative path]
  | .previewed path content =>
      (p.paint .yellow "[dry-run]" ++ " " ++ action ++ ": " ++ p.relative path) ::
        match content with
        | some text => [p.separator, text, p.separator]
        | none => []

def change : ArgTypesChange → String
  | .replaced => "argTypes replaced"
  | .inserted => "argTypes inserted"
  | .removed => "argTypes removed"
  | .untouched => "argTypes untouched"

def reconciled (r : ReconcileReport) : String :=
  "Updated story (" ++ change r.argTypes ++ ", " ++
    (if r.argsUpdated then "args updated" else "args untouched") ++ ")"

def reasonStyle : SkipReason → Style
  | .unrecognized | .unparsable _ => .yellow
  | _ => .dimmed

def outcome (p : Printer) : Outcome → List String
  | .created w props => p.write w ("Created story (" ++ toString props ++ " prop(s))")
  | .reconciled w r =>
      p.write w (reconciled r) ++
        r.diagnostics.map fun d => "  " ++ p.paint .yellow "Warning:" ++ " " ++ d.message
  | .unchanged story => [p.tick ++ " Up to date: " ++ p.relative story]
  | .skipped story reason =>
      [p.dash ++ " " ++ p.relative story ++ ": " ++ p.paint (reasonStyle reason) reason.message]
  | .deleted w => p.write w "Deleted story"
  | .nothingToDelete story => [p.dash ++ " No story to delete: " ++ p.relative story]
  | .ignored => []

def report (p : Printer) (r : EventReport) : List String :=
  match r.result with
  | .ok o => p.outcome o
  | .error (.error e) =>
      [p.paint .red "✗" ++ " " ++ p.relative r.event.path ++ ": " ++ e.message]
  | .error .brokenOff => []

def summary (p : Printer) (handled failed : Nat) : List String :=
  ["", "  Synced " ++ p.paint .green (toString handled) ++ " component(s), " ++
    p.paint .red (toString failed) ++ " failed"]

end Printer

end PropStories.Cli
