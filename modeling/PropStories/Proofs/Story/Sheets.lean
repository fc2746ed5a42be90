import PropStories.Proofs.Story.Courses
import PropStories.Story.Template

/-!
# New stories with their regions filled in

A new story with any values for its regions, and the tree that a parser is expected to make of it.
Of the tree, only the places of the entries and the names of the two variables matter; the imports,
the types and the insides of the values are left open.
-/

namespace PropStories.StoryTemplate

open Story Tsx
open Reconciliation (rendered)

/-! ## The text -/

inductive Key where
  | title | component | tags | parameters
  | region (r : Region)
  deriving DecidableEq

def Key.text : Key → String
  | title => "title"
  | component => "component"
  | tags => "tags"
  | parameters => "parameters"
  | region r => r.key

theorem Key.unquoted_text (k : Key) : String.ofList (Text.dropEndWhile Syntax.isQuote
    (k.text.toList.dropWhile Syntax.isQuote)) = k.text := by
  cases k with
  | region r => cases r <;> decide
  | _ => decide

structure Entry where
  key : Key
  value : List Char
  deriving DecidableEq

namespace Entry

def lead (e : Entry) : List Char := ['\n', ' ', ' '] ++ (e.key.text.toList ++ [':', ' '])

def text (e : Entry) : List Char := e.lead ++ (e.value ++ [','])

end Entry

def textOf (es : List Entry) : List Char := es.flatMap Entry.text

def literal (es : List Entry) : List Char := '\x7b' :: (textOf es ++ ['\n', '\x7d'])

def slot (r : Region) (value : Option (List Char)) : List Entry :=
  (value.map fun v => ⟨.region r, v⟩).toList

structure Sheet where
  /-- The table of props, in `meta`. -/
  table : Option (List Char)
  /-- The args in `meta`, where the story itself is called that. -/
  own : Option (List Char)
  /-- The args of the story. -/
  args : List Char
  deriving DecidableEq

def lead (name type : String) : String := "const " ++ name ++ ": " ++ type ++ " = "

section

variable (t : StoryTemplate)

def imports : String :=
  "import type \x7b Meta, StoryObj \x7d from \"@storybook/react\";\n" ++
    "import " ++ t.component ++ " from \"" ++ escaped t.importPath ++ "\";\n" ++
    (if t.actions then
      "import \x7b " ++ Synth.actionHelper ++ " \x7d from \"" ++ actionsModule ++ "\";\n"
    else "") ++ "\n"

def metaType : String := "Meta<typeof " ++ t.component ++ ">"

def basics : List Entry :=
  [⟨.title, ("\"" ++ escaped t.title ++ "\"").toList⟩, ⟨.component, t.component.toList⟩,
    ⟨.tags, ("[\"" ++ docsTag ++ "\"]").toList⟩, ⟨.parameters, "\x7b\x7d".toList⟩]

def about (s : Sheet) : List Entry := t.basics ++ (slot .argTypes s.table ++ slot .args s.own)

def middle : String :=
  ";\n\nexport default " ++ metaName ++ ";\ntype Story = StoryObj<typeof " ++ metaName ++
    ">;\n\nexport "

def text (s : Sheet) : List Char :=
  (t.imports ++ lead metaName t.metaType).toList ++ (literal (t.about s) ++
    ((middle ++ lead t.story "Story").toList ++
      (literal (slot .args (some s.args)) ++ [';', '\n'])))

def blank : Sheet where
  table := if t.argTypes then some "\x7b\x7d".toList else none
  own := none
  args := "\x7b\x7d".toList

theorem render_eq : t.render.toList = t.text t.blank := by
  unfold render lines text imports metaType about basics middle blank lead literal
  cases t.argTypes <;> cases t.actions <;>
    simp [slot, textOf, Entry.text, Entry.lead, Key.text, Region.key]

def written (r : Region) (props : List Synth.PropDescriptor) : List Char :=
  rendered r props [' ', ' ']

def filled (props : List Synth.PropDescriptor) (s : Sheet) : Sheet where
  table := if t.argTypes then some (written .argTypes props) else s.table
  own := if t.story = metaName then some (written .args props) else s.own
  args := if t.story = metaName then s.args else written .args props

theorem filled_filled (props : List Synth.PropDescriptor) (s : Sheet) :
    t.filled props (t.filled props s) = t.filled props s := by
  unfold filled
  split <;> split <;> rfl

end

/-! ## The tree -/

def Entry.pair (e : Entry) (n : Nat) (value : Tree) : Tree :=
  let key := n + 3
  let colon := key + e.key.text.length
  .node .pair none key (n + e.text.length - 1)
    [.node .propertyIdentifier (some .key) key colon [],
      .node (.token ":") none colon (colon + 1) [], value]

def comma (stop : Nat) : Tree := .node (.token ",") none (stop - 1) stop []

def entryTrees : Nat → List Entry → List Tree → List Tree
  | n, e :: es, v :: vs =>
    e.pair n v :: comma (n + e.text.length) :: entryTrees (n + e.text.length) es vs
  | _, _, _ => []

/-- Whether the nodes can be those of the values of entries that begin at `n`: a value in braces is
an object literal. -/
def ValuesFit : Nat → List Entry → List Tree → Prop
  | n, e :: es, v :: vs =>
      (v.label? = some .value ∧ v.start = n + e.lead.length ∧
        v.stop = n + e.lead.length + e.value.length ∧
        (e.value.head? = some '\x7b' → v.kind = .object)) ∧
      ValuesFit (n + e.text.length) es vs
  | _, [], [] => True
  | _, _, _ => False

def literalTree (n : Nat) (es : List Entry) (values : List Tree) : Tree :=
  let stop := n + (literal es).length
  .node .object (some .value) n stop
    (.node (.token "\x7b") none n (n + 1) [] ::
      (entryTrees (n + 1) es values ++ [.node (.token "\x7d") none (stop - 1) stop []]))

def declarator (n : Nat) (name type : String) (inner : List Tree) (object : Tree) : Tree :=
  let start := n + "const ".length
  let colon := start + name.length
  let typed := colon + 2 + type.length
  .node .variableDeclarator none start object.stop
    [.node .identifier (some .name) start colon [],
      .node .typeAscription (some .type) colon typed inner,
      .node (.token "=") none (typed + 1) (typed + 2) [],
      object]

def declaration (label : Option Label) (n : Nat) (name type : String) (inner : List Tree)
    (object : Tree) : Tree :=
  .node .lexicalDeclaration label n (object.stop + 1)
    [.node (.token "const") none n (n + 5) [], declarator n name type inner object,
      .node (.token ";") none object.stop (object.stop + 1) []]

def exported (n : Nat) (name type : String) (inner : List Tree) (object : Tree) : Tree :=
  let start := n - "export ".length
  .node .exportStatement none start (object.stop + 1)
    [.node (.token "export") none start (start + 6) [],
      declaration (some .declaration) n name type inner object]

structure Details where
  imports : List Tree
  metaType : List Tree
  aboutValues : List Tree
  between : List Tree
  storyType : List Tree
  storyValues : List Tree

section

variable (t : StoryTemplate)

def aboutStart : Nat := (t.imports ++ lead metaName t.metaType).length

def storyDeclared (s : Sheet) : Nat :=
  t.aboutStart + (literal (t.about s)).length + middle.length

def storyStart (s : Sheet) : Nat := t.storyDeclared s + (lead t.story "Story").length

def aboutTree (s : Sheet) (d : Details) : Tree :=
  literalTree t.aboutStart (t.about s) d.aboutValues

def storyTree (s : Sheet) (d : Details) : Tree :=
  literalTree (t.storyStart s) (slot .args (some s.args)) d.storyValues

def tree (s : Sheet) (d : Details) : Tree :=
  .node .program none 0 (t.text s).length (d.imports ++
    (declaration none t.imports.length metaName t.metaType d.metaType (t.aboutTree s d) ::
      (d.between ++
        [exported (t.storyDeclared s) t.story "Story" d.storyType (t.storyTree s d)])))

structure Details.Fit (s : Sheet) (d : Details) : Prop where
  imports : ∀ i ∈ d.imports, i.kind = .importStatement
  aboutValues : ValuesFit (t.aboutStart + 1) (t.about s) d.aboutValues
  between : ∀ i ∈ d.between, i.kind = .typeAliasDeclaration ∨
    i.kind = .exportStatement ∧ i.child? .declaration = none
  storyValues : ValuesFit (t.storyStart s + 1) (slot .args (some s.args)) d.storyValues

/-- Whether a new story with the given values is refused, or its tree is the expected one. -/
def Reads (s : Sheet) : Prop :=
  (parse (t.text s)).root.firstFault? = none →
    ∃ d : Details, d.Fit t s ∧ (parse (t.text s)).root = t.tree s d

end

end PropStories.StoryTemplate
