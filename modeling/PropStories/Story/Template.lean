import PropStories.Synth.Value

/-!
# The story of a new component

A new story imports its component, describes it in `meta` and exports one story without args. It
holds no props: they are filled in the way an existing story is updated.
-/

namespace PropStories

def metaName : String := "meta"

def docsTag : String := "autodocs"

def actionsModule : String := "@storybook/addon-actions"

structure StoryTemplate where
  component : String
  /-- The module that the component is imported from. -/
  importPath : String
  title : String
  /-- The name of the one story. -/
  story : String
  /-- Whether there is a table of props, still empty. -/
  argTypes : Bool
  /-- Whether the function that records calls is imported. -/
  actions : Bool

namespace StoryTemplate

def escaped (s : String) : String :=
  String.ofList (s.toList.flatMap fun c => if c == '\\' || c == '\x22' then ['\\', c] else [c])

def lines (t : StoryTemplate) : List String :=
  ["import type \x7b Meta, StoryObj \x7d from \"@storybook/react\";",
    "import " ++ t.component ++ " from \"" ++ escaped t.importPath ++ "\";"] ++
  (if t.actions then
    ["import \x7b " ++ Synth.actionHelper ++ " \x7d from \"" ++ actionsModule ++ "\";"]
  else []) ++
  ["",
    "const " ++ metaName ++ ": Meta<typeof " ++ t.component ++ "> = \x7b",
    "  title: \"" ++ escaped t.title ++ "\",",
    "  component: " ++ t.component ++ ",",
    "  tags: [\"" ++ docsTag ++ "\"],",
    "  parameters: \x7b\x7d,"] ++
  (if t.argTypes then ["  argTypes: \x7b\x7d,"] else []) ++
  ["\x7d;",
    "",
    "export default " ++ metaName ++ ";",
    "type Story = StoryObj<typeof " ++ metaName ++ ">;",
    "",
    "export const " ++ t.story ++ ": Story = \x7b",
    "  args: \x7b\x7d,",
    "\x7d;"]

def render (t : StoryTemplate) : String := String.join (t.lines.map (· ++ "\n"))

end StoryTemplate

end PropStories
