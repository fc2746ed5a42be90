import PropStories.Config.Error
import PropStories.Config.Settings
import PropStories.Disk.Basic
import PropStories.Text.Quoted

/-!
# The configuration of a project

A project is configured in five sections. Together with the place of the project they give the
settings of its stories.
-/

namespace PropStories

structure PathsSection where
  /-- The project root, to which the other paths are relative. -/
  root : Path
  components : Path
  /-- Without a stories directory, the layout of the project decides. -/
  stories : Option Path
  shortForm : Alias

structure StorySection where
  ending : String
  defaultName : String
  argTypes : Bool
  actions : Bool

structure WatchSection where
  extensions : List String
  /-- Patterns of paths, relative to the components directory, that are no components. -/
  ignored : List String
  /-- How long events are collected, in milliseconds. -/
  debounce : Nat
  gitignore : Bool

structure FormatSection where
  enabled : Bool
  /-- The program and its arguments, in front of the path of the story. -/
  command : List String

structure ProjectConfig where
  paths : PathsSection
  story : StorySection
  maxDepth : Nat
  watch : WatchSection
  format : FormatSection

namespace ProjectConfig

open Settings (standard)

/-! ## Defaults -/

def standardIgnored : List String :=
  ["**/*.test.*", "**/*.spec.*", "**/node_modules/**", "**/.next/**", "**/.storybook/**"]

def standardPaths : PathsSection :=
  ⟨standard.projectRoot, standard.componentsDir, none, standard.shortForm⟩

def standardStory : StorySection :=
  ⟨standard.storyEnding, standard.defaultStory, standard.argTypes, standard.actions⟩

def standardWatch : WatchSection := ⟨standard.extensions, standardIgnored, 300, true⟩

def standardFormat : FormatSection := ⟨true, ["npx", "prettier", "--write"]⟩

def initial : ProjectConfig :=
  ⟨standardPaths, standardStory, standard.maxDepth, standardWatch, standardFormat⟩

/-! ## Reading

Fields are read in the order of their names, so that of several faults the first by name counts. -/

def decodePaths : Decoder PathsSection := fun v => do
  let d := standardPaths
  let fs ← Fields.decode v
  let mark ← fs.get "alias_prefix" 3 Decoder.text d.shortForm.mark
  let aliasRoot ← fs.get "alias_root" 4 Decoder.path d.shortForm.root
  let components ← fs.get "components" 1 Decoder.path d.components
  let root ← fs.get "root" 0 Decoder.path d.root
  let stories ← fs.get "stories" 2 (.optional Decoder.path) d.stories
  .ok ⟨root, components, stories, mark, aliasRoot⟩

def decodeStory : Decoder StorySection := fun v => do
  let d := standardStory
  let fs ← Fields.decode v
  let actions ← fs.get "actions" 3 Decoder.boolean d.actions
  let argTypes ← fs.get "arg_types" 2 Decoder.boolean d.argTypes
  let defaultName ← fs.get "default_name" 1 Decoder.text d.defaultName
  let ending ← fs.get "extension" 0 Decoder.text d.ending
  .ok ⟨ending, defaultName, argTypes, actions⟩

def decodeMaxDepth : Decoder Nat := fun v => do
  let fs ← Fields.decode v
  fs.get "max_depth" 0 Decoder.count standard.maxDepth

def decodeWatch : Decoder WatchSection := fun v => do
  let d := standardWatch
  let fs ← Fields.decode v
  let debounce ← fs.get "debounce_ms" 2 Decoder.count d.debounce
  let extensions ← fs.get "extensions" 0 (.listOf Decoder.text) d.extensions
  let gitignore ← fs.get "gitignore" 3 Decoder.boolean d.gitignore
  let ignored ← fs.get "ignore" 1 (.listOf Decoder.text) d.ignored
  .ok ⟨extensions, ignored, debounce, gitignore⟩

def decodeFormat : Decoder FormatSection := fun v => do
  let d := standardFormat
  let fs ← Fields.decode v
  let command ← fs.get "command" 1 (.listOf Decoder.text) d.command
  let enabled ← fs.get "enabled" 0 Decoder.boolean d.enabled
  .ok ⟨enabled, command⟩

def decode : Decoder ProjectConfig := fun v => do
  let d := initial
  let fs ← Fields.decode v
  let format ← fs.get "format" 4 decodeFormat d.format
  let paths ← fs.get "paths" 0 decodePaths d.paths
  let story ← fs.get "story" 1 decodeStory d.story
  let maxDepth ← fs.get "synthesis" 2 decodeMaxDepth d.maxDepth
  let watch ← fs.get "watch" 3 decodeWatch d.watch
  .ok ⟨paths, story, maxDepth, watch, format⟩

/-! ## Overriding -/

structure Overrides where
  root : Option Path := none
  components : Option Path := none
  stories : Option Path := none
  extensions : Option (List String) := none
  storyEnding : Option String := none
  defaultStory : Option String := none
  argTypes : Option Bool := none
  actions : Option Bool := none
  maxDepth : Option Nat := none
  format : Option Bool := none

def override (c : ProjectConfig) (o : Overrides) : ProjectConfig :=
  { paths :=
      { c.paths with
        root := o.root.getD c.paths.root
        components := o.components.getD c.paths.components
        stories := o.stories <|> c.paths.stories }
    story :=
      { ending := o.storyEnding.getD c.story.ending
        defaultName := o.defaultStory.getD c.story.defaultName
        argTypes := o.argTypes.getD c.story.argTypes
        actions := o.actions.getD c.story.actions }
    maxDepth := o.maxDepth.getD c.maxDepth
    watch := { c.watch with extensions := o.extensions.getD c.watch.extensions }
    format := { c.format with enabled := o.format.getD c.format.enabled } }

def anchoredAt (c : ProjectConfig) (place : Path) : ProjectConfig :=
  let root := if c.paths.root.same ⟨"."⟩ then place else place.join c.paths.root
  { c with paths := { c.paths with root := root } }

/-! ## What follows from a configuration -/

/-- The stories directory. Unless it is set, it lies in the sources of the project, or in the
project itself if there is no directory for sources. -/
def storiesDir (c : ProjectConfig) (d : Disk) : Path :=
  let root := c.paths.root
  match c.paths.stories with
  | some dir => root.join dir
  | none =>
      if d.isDirectory (root.join ⟨"src"⟩) then (root.join ⟨"src"⟩).join ⟨"stories"⟩
      else root.join ⟨"stories"⟩

def formatterCommand (c : ProjectConfig) : Option (List String) :=
  if c.format.enabled && !c.format.command.isEmpty then some c.format.command else none

def settings (c : ProjectConfig) (d : Disk) : Settings :=
  { projectRoot := c.paths.root
    componentsDir := c.paths.components
    storiesDir := c.storiesDir d
    extensions := c.watch.extensions
    storyEnding := c.story.ending
    defaultStory := c.story.defaultName
    maxDepth := c.maxDepth
    argTypes := c.story.argTypes
    actions := c.story.actions
    shortForm := c.paths.shortForm }

/-! ## Checking -/

def startsWithDot (s : String) : Bool := Text.startsWith ['.'] s.toList

/-- What is wrong with the values of a configuration, if anything; the first fault counts. -/
def fault? (c : ProjectConfig) : Option ConfigError :=
  if c.maxDepth == 0 then some (.invalidValue "synthesis.max_depth" "must be at least 1")
  else if c.watch.extensions.isEmpty then
    some (.invalidValue "watch.extensions" "at least one component extension is required")
  else match c.watch.extensions.find? fun e => !startsWithDot e with
    | some e => some (.invalidValue "watch.extensions" ("'" ++ e ++ "' must start with a dot"))
    | none =>
        if !startsWithDot c.story.ending then
          some (.invalidValue "story.extension" "must start with a dot")
        else if !Text.isIdentifier c.story.defaultName then
          some (.invalidValue "story.default_name"
            ("'" ++ c.story.defaultName ++ "' is not a valid identifier"))
        else if c.format.enabled && c.format.command.isEmpty then
          some (.invalidValue "format.command" "must name a program when formatting is enabled")
        else none

end ProjectConfig

end PropStories
