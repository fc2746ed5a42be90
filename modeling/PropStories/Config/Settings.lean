import PropStories.Config.Value
import PropStories.Text.Blank
import PropStories.Text.UpperCase

/-!
# Settings

What the stories of a project depend on: where components and stories lie, how their files end,
and what is generated.
-/

namespace PropStories

structure Alias where
  /-- What stands for the directory, such as `@/`. -/
  mark : String
  /-- The directory, relative to the project root. -/
  root : Path

def Alias.standard : Alias := ⟨"@/", ⟨"src"⟩⟩

structure Settings where
  projectRoot : Path
  componentsDir : Path
  storiesDir : Path
  /-- How component files end, each with a dot in front. -/
  extensions : List String
  storyEnding : String
  /-- The name of the story that is generated. -/
  defaultStory : String
  maxDepth : Nat
  argTypes : Bool
  actions : Bool
  shortForm : Alias

namespace Settings

def standard : Settings :=
  { projectRoot := ⟨"."⟩
    componentsDir := ⟨"src/components"⟩
    storiesDir := ⟨"src/stories"⟩
    extensions := [".tsx", ".jsx"]
    storyEnding := ".stories.tsx"
    defaultStory := "Default"
    maxDepth := 2
    argTypes := true
    actions := false
    shortForm := .standard }

/-! ## Places -/

def aliasRoot (s : Settings) : Path := s.projectRoot.join s.shortForm.root

def componentsRoot (s : Settings) : Path := s.projectRoot.join s.componentsDir

def storiesRoot (s : Settings) : Path := s.projectRoot.join s.storiesDir

/-! ## Component files -/

def plainExtension (extension : String) : List Char := extension.toList.dropWhile (· == '.')

def isComponentFile (s : Settings) (p : Path) : Bool :=
  match p.ending? with
  | none => false
  | some e =>
      let ending := Text.asciiLower e.toList
      s.extensions.any fun x => Text.sameIgnoringCase (plainExtension x) ending

/-! ## Reading -/

def decodeAlias : Decoder Alias := fun v => do
  let fs ← Fields.decode v
  if fs.exceed 2 then .error v.1
  let mark ← fs.get "prefix" 0 Decoder.text Alias.standard.mark
  let root ← fs.get "root" 1 Decoder.path Alias.standard.root
  .ok ⟨mark, root⟩

def decode : Decoder Settings := fun v => do
  let d := standard
  let fs ← Fields.decode v
  if fs.exceed 10 then .error v.1
  let projectRoot ← fs.get "project_root" 0 Decoder.path d.projectRoot
  let componentsDir ← fs.get "components_dir" 1 Decoder.path d.componentsDir
  let storiesDir ← fs.get "stories_dir" 2 Decoder.path d.storiesDir
  let extensions ← fs.get "component_extensions" 3 (.listOf Decoder.text) d.extensions
  let storyEnding ← fs.get "story_extension" 4 Decoder.text d.storyEnding
  let defaultStory ← fs.get "default_story_name" 5 Decoder.text d.defaultStory
  let maxDepth ← fs.get "max_recursion_depth" 6 Decoder.count d.maxDepth
  let argTypes ← fs.get "generate_arg_types" 7 Decoder.boolean d.argTypes
  let actions ← fs.get "actions" 8 Decoder.boolean d.actions
  let shortForm ← fs.get "alias" 9 decodeAlias d.shortForm
  .ok { projectRoot, componentsDir, storiesDir, extensions, storyEnding, defaultStory, maxDepth,
        argTypes, actions, shortForm }

end Settings

end PropStories
