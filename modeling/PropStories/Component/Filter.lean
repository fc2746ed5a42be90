import PropStories.Component.Error
import PropStories.Component.Pattern
import PropStories.Config.Settings

/-!
# Which files are components

A component has one of the configured extensions, is no story, and matches no ignore pattern.
Patterns see the path from the components directory.
-/

namespace PropStories

structure ComponentFilter where
  settings : Settings
  ignored : List Pattern

namespace ComponentFilter

def ofPatterns (s : Settings) (patterns : List String) : Except ScanError ComponentFilter :=
  (patterns.mapM fun p => (Pattern.ofText p).mapError fun f =>
    ScanError.invalidPattern p f.message).map (ComponentFilter.mk s)

def root (f : ComponentFilter) : Path := f.settings.componentsRoot

def isIgnored (f : ComponentFilter) (path : Path) : Bool :=
  let seen := (path.from? f.root).getD path
  f.ignored.any (·.isMatch seen.text)

/-- The extensions of components, without the dots in front and in lower case. -/
def extensions (f : ComponentFilter) : List (List Char) :=
  f.settings.extensions.map fun x => Text.asciiLower (Settings.plainExtension x)

def hasExtension (f : ComponentFilter) (path : Path) : Bool :=
  match path.ending? with
  | some e => f.extensions.contains (Text.asciiLower e.toList)
  | none => false

/-- It does not matter where letters and dots are taken away. -/
theorem hasExtension_eq (f : ComponentFilter) (path : Path) :
    f.hasExtension path = f.settings.isComponentFile path := by
  rw [hasExtension, Settings.isComponentFile]
  cases path.ending? with
  | none => rfl
  | some e =>
      simp only [extensions, Text.sameIgnoringCase, Text.asciiLower_asciiLower,
        List.contains_eq_any_beq, List.any_map, Function.comp_def, Bool.beq_comm]

def isStory (f : ComponentFilter) (path : Path) : Bool :=
  match path.fileName? with
  | some name => Text.endsWith f.settings.storyEnding.toList name.toList
  | none => false

def accepts (f : ComponentFilter) (path : Path) : Bool :=
  f.hasExtension path && !f.isStory path &&
    !path.startsWith f.settings.storiesRoot && !f.isIgnored path

end ComponentFilter

end PropStories
