import PropStories.Config.Project
import PropStories.Proofs.Identity.Identifiers
import PropStories.Proofs.Story.Repetition
import PropStories.Proofs.Story.Sheets
import PropStories.Proofs.Tsx.Faultless
import PropStories.Proofs.Tsx.Layouts
import PropStories.Proofs.Tsx.Modules
import PropStories.Story.Decision

/-!
# Names of a new story

A new story imports its component, two types and perhaps the function that records calls, and
declares two variables. The names come from three places: they are fixed, or made from the path of
the component, or configured. Main statement: the configured one is checked to be an identifier, but
neither that it is free to be bound nor that it differs from the others; a story whose module and
title stay on their lines is read without a fault, and it binds just these names.
-/

namespace PropStories

open Text Tsx

/-! ## Names of components -/

namespace Identity

theorem isIdentifier_of_isAlpha (s : String) (some_ : s ≠ "")
    (letters : ∀ c ∈ s.toList, c.isAlpha = true) : isIdentifier s = true := by
  have alphabetic : ∀ c ∈ s.toList, isAlphabetic c = true := by
    intro c hc
    have alpha := letters c hc
    have ascii : c.toNat < 128 := by
      show c.val.toNat < 128
      obtain capital | small : c.isUpper = true ∨ c.isLower = true := Bool.or_eq_true_iff.1 alpha
      · have := bounds_of_isUpper capital
        omega
      · have small : (decide ('a'.val ≤ c.val) && decide (c.val ≤ 'z'.val)) = true := small
        have high : c.val.toNat ≤ 122 :=
          UInt32.le_iff_toNat_le.1 (of_decide_eq_true (Bool.and_eq_true_iff.1 small).2)
        omega
    exact isAlphabetic_of_isAlpha alpha ascii
  obtain ⟨c, cs, text⟩ := List.exists_cons_of_ne_nil fun empty : s.toList = [] =>
    some_ (String.toList_inj.1 empty)
  have eq : s = String.ofList (c :: cs) := by rw [← text, String.ofList_toList]
  rw [text, List.forall_mem_cons] at alphabetic
  rw [eq, isIdentifier_ofList]
  exact ⟨isIdentifierStart_of_alphabetic alphabetic.1, List.all_eq_true.2 fun d hd =>
    isWordPart_of_start (isIdentifierStart_of_alphabetic (alphabetic.2 d hd))⟩

theorem isNamePart_of_mem_upperCase {c d : Char} (part : Lexeme.isNamePart c = true)
    (h : d ∈ upperCase c) : Lexeme.isNamePart d = true := by
  have ascii : ∀ n < 128, Lexeme.isNamePart (Char.ofNat n) = true →
      Lexeme.isNamePart (Char.ofNat n).toUpper = true := by decide
  have long : ∀ x ∈ longUpperCases, ∀ u ∈ x.2, Lexeme.isNamePart (Char.ofNat u) = true := by
    decide
  obtain ⟨small, upper⟩ | ⟨-, us, found, upper⟩ |
    ⟨beyond, single, self | ⟨r, hr, covers, upper⟩⟩ := upperCase_cases c
  · rw [upper, List.mem_singleton] at h
    simpa [h] using ascii c.toNat small (by simpa using part)
  · rw [upper] at h
    obtain ⟨u, hu, rfl⟩ := List.mem_map.1 h
    exact long _ found u hu
  · rw [self, List.mem_singleton] at h
    rwa [h]
  · have capital := isCapital_run hr covers beyond single upper
    have parts := capital.parts.2 (not_accented_of_single single)
    rw [capital.upperCase] at h
    exact isNamePart_of_isIdentifierPart (List.all_eq_true.1 parts d h)

theorem isNamePart_of_mem_capitalize {w : List Char} {d : Char} (h : d ∈ capitalize w)
    (parts : ∀ c ∈ w, Lexeme.isNamePart c = true) : Lexeme.isNamePart d = true := by
  cases w with
  | nil => cases h
  | cons c cs =>
      obtain h | h := List.mem_append.1 h
      · exact isNamePart_of_mem_upperCase (parts c List.mem_cons_self) h
      · exact parts d (List.mem_cons_of_mem _ h)

theorem isNamePart_of_mem_toIdentifier {raw : List Char} {d : Char} (h : d ∈ toIdentifier raw) :
    Lexeme.isNamePart d = true := by
  rw [toIdentifier_eq] at h
  refine isNamePart_of_mem_capitalize h fun c hc => ?_
  obtain ⟨w, hw, member⟩ := List.mem_flatten.1 ((List.dropWhile_sublist _).subset hc)
  obtain ⟨piece, hpiece, rfl⟩ := List.mem_map.1 hw
  exact isNamePart_of_mem_capitalize member fun e he =>
    isNamePart_of_isIdentifierPart (isWordPart_of_mem hpiece e he)

def isSmall (s : String) : Bool := s.toList.head?.any fun c => c.toNat < 128 && c.isLower

/-- The words of the language are small, a component is not. -/
theorem displayName_ne {component root : Path} {v : String} (small : isSmall v = true) :
    (displayName component root).text ≠ v := by
  rintro rfl
  obtain ⟨c, first, both⟩ := (Option.any_eq_true _ _).1 small
  rw [Bool.and_eq_true, decide_eq_true_eq] at both
  obtain ⟨-, -, head⟩ := displayName_text component root
  have large := (head c first both.1).1
  rw [both.2] at large
  cases large

theorem displayName_isPlainName (component root : Path) :
    IsPlainName (displayName component root).text.toList := by
  obtain ⟨some_, -, head⟩ := displayName_text component root
  have parts : ∀ d ∈ (displayName component root).text.toList, Lexeme.isNamePart d = true := by
    obtain whole | ⟨raw, -, whole⟩ := displayName_cases component root
    · rw [whole]
      decide
    · rw [whole, DisplayName.text, String.toList_ofList]
      exact fun d hd => isNamePart_of_mem_toIdentifier hd
  refine ⟨⟨?_, parts⟩, fun word => ?_⟩
  · obtain ⟨c, cs, text⟩ := List.exists_cons_of_ne_nil some_
    refine ⟨c, cs, text, ?_⟩
    rw [Lexeme.isNameStart, parts c (text ▸ List.mem_cons_self), Bool.true_and, Bool.not_eq_true',
      Bool.eq_false_iff]
    intro digit
    have noDigit := (head c (by rw [text]; rfl) (ascii_of_isDigit digit)).2
    rw [digit] at noDigit
    cases noDigit
  · have all : ∀ v ∈ languageWords, isSmall v = true := by decide
    exact displayName_ne (all _ word) String.ofList_toList.symm

end Identity

namespace StoryTemplate

open Story (objectOf?)

/-! ## Values -/

def Unbroken (s : String) : Prop := ∀ c ∈ s.toList, c ≠ '\n' ∧ c ≠ '\r'

instance (s : String) : Decidable (Unbroken s) :=
  inferInstanceAs (Decidable (∀ c ∈ s.toList, c ≠ '\n' ∧ c ≠ '\r'))

theorem isInside_escaped {s : String} (h : Unbroken s) : IsInside '\x22' (escaped s).toList := by
  rw [escaped, String.toList_ofList]
  unfold Unbroken at h
  generalize s.toList = cs at h
  induction cs with
  | nil => exact .nil
  | cons c cs ih =>
      have rest := ih fun d hd => h d (List.mem_cons_of_mem _ hd)
      obtain ⟨feed, carriage⟩ := h c List.mem_cons_self
      rw [List.flatMap_cons]
      split
      next special =>
        rw [Bool.or_eq_true, beq_iff_eq, beq_iff_eq] at special
        obtain rfl | rfl := special <;> exact .escape (by decide) rest
      next plain =>
        rw [Bool.or_eq_true, beq_iff_eq, beq_iff_eq, not_or] at plain
        exact .plain ⟨plain.2, plain.1, feed, carriage⟩ rest

def quoted (s : String) : List Char := '\x22' :: ((escaped s).toList ++ ['\x22'])

theorem isString_quoted {s : String} (h : Unbroken s) : IsString (quoted s) :=
  (isInside_escaped h).isString (.inr rfl)

theorem Key.isName (k : Key) : IsName k.text.toList := by
  refine isName_of_isIdentifier ?_
  cases k with
  | region r => cases r <;> decide
  | _ => decide

def Entry.listed (e : Entry) : Tsx.Entry := ⟨some e.key.text.toList, e.value, [], []⟩

theorem literal_eq (es : List Entry) : literal es =
    '\x7b' :: (inside (ownLines [' ', ' '] [] [] (es.map Entry.listed)) ++ ['\x7d']) := by
  have body : textOf es ++ ['\n'] = inside (ownLines [' ', ' '] [] [] (es.map Entry.listed)) := by
    rw [inside_ownLines, List.nil_append, List.append_nil, List.flatMap_map]
    induction es with
    | nil => rfl
    | cons e es ih =>
        rw [textOf, List.flatMap_cons, List.append_assoc, ← textOf, ih, List.flatMap_cons]
        simp [Entry.text, Entry.lead, Entry.listed, Tsx.Entry.text, Slot.lead]
  rw [literal, ← body]
  simp

def pairsOf (es : List Entry) : List (Option (List Char × List Char)) :=
  es.map fun e => some (e.key.text.toList, e.key.text.toList ++ [':', ' '] ++ e.value)

theorem isObject_literal {es : List Entry} (h : ∀ e ∈ es, Standalone e.value) :
    IsObject (literal es) (pairsOf es) := by
  have pairs : (es.map Entry.listed).map (fun e => (e.slot []).pair?) = pairsOf es := by
    rw [List.map_map]
    rfl
  have blank : IsGap ['\n', ' ', ' '] :=
    .blank (by decide) (.blank (by decide) (.blank (by decide) .nil))
  rw [literal_eq, ← pairs]
  refine isObject_ownLines blank (.blank (by decide) .nil) (List.forall_mem_map.2 fun e he => ?_)
  exact ⟨⟨_, rfl, .inl e.key.isName⟩, h e he, .nil, fun _ hg => hg⟩

/-! ## Keys -/

def isNamed (key : String) (pair : Option (List Char × List Char)) : Bool :=
  pair.any fun p =>
    String.ofList (Text.dropEndWhile Syntax.isQuote (p.1.dropWhile Syntax.isQuote)) == key

/-- A key is found among the pairs, by its text without quotes. -/
theorem pairOf?_isSome (x : Syntax) (object : Tree) (key : String) :
    (Story.pairOf? x object key).isSome =
      (object.parts.map (pairText? x.source)).any (isNamed key) := by
  have entry (m : Tree) : Reconciliation.isEntry x key m = isNamed key (pairText? x.source m) := by
    unfold Reconciliation.isEntry isNamed pairText?
    by_cases pair : m.kind = .pair
    · rw [if_pos pair, pair]
      cases m.child? .key <;> rfl
    · rw [if_neg pair, beq_eq_false_iff_ne.2 pair]
      rfl
  rw [Reconciliation.pairOf?_eq, List.isSome_find?, List.any_map, Tree.parts, List.any_filter]
  refine congrArg object.namedChildren.any (funext fun m => ?_)
  rw [Function.comp_apply, ← entry]
  unfold Reconciliation.isEntry
  by_cases pair : m.kind = .pair
  · rw [pair]
    rfl
  · rw [beq_eq_false_iff_ne.2 pair, Bool.false_and, Bool.and_false]

theorem any_pairsOf (es : List Entry) (key : String) :
    (pairsOf es).any (isNamed key) = es.any (·.key.text == key) := by
  rw [pairsOf, List.any_map]
  simp only [Function.comp_def, isNamed, Option.any_some, Key.unquoted_text]

/-! ## Statements -/

section

variable (t : StoryTemplate)

def bindings : List String :=
  ["Meta", "StoryObj", t.component] ++ (if t.actions then [Synth.actionHelper] else []) ++
    [metaName, t.story]

def helperImports : List Statement :=
  if t.actions then
    [⟨['\n'] ++ "import".toList ++ ([' '] ++ braced Synth.actionHelper.toList [] ++
      fromText (quoted actionsModule)) ++ [';'], [Synth.actionHelper.toList], []⟩]
  else []

def statements : List Statement :=
  [⟨"import".toList ++ ([' '] ++ "type".toList ++
      ([' '] ++ braced "Meta".toList ["StoryObj".toList] ++ fromText (quoted "@storybook/react"))) ++
      [';'], ["Meta".toList, "StoryObj".toList], []⟩,
    ⟨['\n'] ++ "import".toList ++ ([' '] ++ t.component.toList ++ fromText (quoted t.importPath)) ++
      [';'], [t.component.toList], []⟩] ++
  t.helperImports ++
  [⟨['\n', '\n'] ++ typedConst metaName.toList ("Meta".toList ++
      '<' :: ("typeof".toList ++ ' ' :: t.component.toList ++ ['>'])) (literal (t.about t.blank)),
      [metaName.toList],
      [⟨metaName.toList, literal (t.about t.blank), pairsOf (t.about t.blank)⟩]⟩,
    ⟨['\n', '\n'] ++ "export".toList ++ ([' '] ++ "default".toList ++
      ([' '] ++ metaName.toList ++ [';'])), [], []⟩,
    ⟨['\n'] ++ "type".toList ++ ([' '] ++ "Story".toList) ++ ([' '] ++ ['=']) ++ ([' '] ++
      ("StoryObj".toList ++ '<' :: ("typeof".toList ++ ' ' :: metaName.toList ++ ['>']))) ++ [';'],
      [], []⟩,
    ⟨['\n', '\n'] ++ "export".toList ++ ([' '] ++ typedConst t.story.toList "Story".toList
      (literal (slot .args (some t.blank.args)))), [t.story.toList],
      [⟨t.story.toList, literal (slot .args (some t.blank.args)),
        pairsOf (slot .args (some t.blank.args))⟩]⟩]

theorem names_statements :
    (t.statements.flatMap Statement.names).map String.ofList = t.bindings := by
  unfold statements helperImports bindings
  cases t.actions <;> simp

theorem declared_statements : t.statements.flatMap Statement.declared =
    [⟨metaName.toList, literal (t.about t.blank), pairsOf (t.about t.blank)⟩,
      ⟨t.story.toList, literal (slot .args (some t.blank.args)),
        pairsOf (slot .args (some t.blank.args))⟩] := by
  unfold statements helperImports
  cases t.actions <;> rfl

set_option maxRecDepth 4000 in
theorem text_statements :
    t.statements.flatMap Statement.text ++ ['\n'] = t.text t.blank := by
  unfold statements helperImports text imports lead metaType middle
  have react : quoted "@storybook/react" = "\"@storybook/react\"".toList := by decide
  have actions : quoted actionsModule = "\"@storybook/addon-actions\"".toList := by decide
  rw [react, actions]
  generalize literal (t.about t.blank) = about
  generalize literal (slot .args (some t.blank.args)) = args
  cases t.actions <;>
    simp [braced, Tsx.listed, fromText, quoted, typedConst, metaName, actionsModule,
      Synth.actionHelper]

variable {t}

theorem standalone_about (component : IsPlainName t.component.toList) (title : Unbroken t.title) :
    ∀ e ∈ t.about t.blank, Standalone e.value := by
  have tags : IsValue "[\"autodocs\"]".toList := by
    have string : IsValue "\"autodocs\"".toList := .string (isString_quoted (s := docsTag) (by decide))
    have entry : Tsx.Entry.Fits Unkeyed IsValue ⟨none, "\"autodocs\"".toList, [], []⟩ :=
      ⟨rfl, string, .nil, fun _ hg => hg⟩
    exact isValue_array (oneLine_ne_nil [] [] _)
      (filled_oneLine _ .nil .nil (List.forall_mem_singleton.2 entry))
  have basics : ∀ e ∈ t.basics, Standalone e.value := by
    rw [StoryTemplate.basics, List.forall_mem_cons, List.forall_mem_cons, List.forall_mem_cons,
      List.forall_mem_singleton]
    refine ⟨?_, component.standalone, tags.standalone, isValue_emptyObject.standalone⟩
    have text : ("\"" ++ escaped t.title ++ "\"").toList = quoted t.title := by simp [quoted]
    rw [text]
    exact IsValue.standalone (.string (isString_quoted title))
  rw [StoryTemplate.about, List.forall_mem_append]
  refine ⟨basics, ?_⟩
  unfold blank slot
  split
  · exact List.forall_mem_singleton.2 isValue_emptyObject.standalone
  · exact List.forall_mem_nil _

theorem reads_statements (x : Syntax) (component : IsPlainName t.component.toList)
    (story : IsName t.story.toList) (path : Unbroken t.importPath) (title : Unbroken t.title) :
    ∀ e ∈ t.statements, e.Reads x := by
  have fixed : ∀ w ∈ ["Meta", "StoryObj", "Story", Synth.actionHelper, metaName],
      IsPlainName w.toList := by
    have all : ∀ w ∈ ["Meta", "StoryObj", "Story", Synth.actionHelper, metaName],
        Text.isIdentifier w = true ∧ String.ofList w.toList ∉ languageWords := by decide
    exact fun w hw => ⟨isName_of_isIdentifier (all w hw).1, (all w hw).2⟩
  have line : IsGap ['\n'] := .blank (by decide) .nil
  have lines : IsGap ['\n', '\n'] := .blank (by decide) line
  have about := isObject_literal (standalone_about component title)
  have args : IsObject (literal (slot .args (some t.blank.args)))
      (pairsOf (slot .args (some t.blank.args))) :=
    isObject_literal (List.forall_mem_singleton.2 isValue_emptyObject.standalone)
  have helper : ∀ e ∈ t.helperImports, e.Reads x := by
    unfold helperImports
    split
    · exact List.forall_mem_singleton.2 (reads_import line
        (List.forall_mem_singleton.2 (fixed _ (by simp))) (isString_quoted (by decide)))
    · exact List.forall_mem_nil _
  rw [StoryTemplate.statements, List.forall_mem_append, List.forall_mem_append]
  refine ⟨⟨?_, helper⟩, ?_⟩
  · rw [List.forall_mem_cons, List.forall_mem_singleton]
    exact ⟨reads_typeImport .nil (List.forall_mem_cons.2 ⟨fixed _ (by simp),
        List.forall_mem_singleton.2 (fixed _ (by simp))⟩) (isString_quoted (by decide)),
      reads_defaultImport line component (isString_quoted path)⟩
  · rw [List.forall_mem_cons, List.forall_mem_cons, List.forall_mem_cons, List.forall_mem_singleton]
    exact ⟨reads_typedConst lines (fixed _ (by simp)).name
        (isType_generic (fixed _ (by simp)) component) about rfl,
      reads_exportDefault (fixed _ (by simp)) lines,
      reads_typeAlias (fixed _ (by simp)) line
        (isType_generic (fixed _ (by simp)) (fixed _ (by simp))),
      reads_typedExport lines story (fixed _ (by simp)).isType args rfl⟩

theorem literal_inj {e d : Entry} {es ds : List Entry} (h : literal (e :: es) = literal (d :: ds)) :
    e.key.text.toList.head? = d.key.text.toList.head? := by
  have first (e : Entry) (es : List Entry) :
      (literal (e :: es))[4]? = e.key.text.toList.head? := by
    obtain ⟨c, cs, text, -⟩ := e.key.isName.start
    simp [literal, textOf, Entry.text, Entry.lead, text]
  rw [← first, ← first, h]

/-- A new story binds its names and has an object literal for each of its variables. -/
theorem parse_render (component : IsPlainName t.component.toList) (story : IsName t.story.toList)
    (path : Unbroken t.importPath) (title : Unbroken t.title) :
    (parse t.render.toList).root.firstFault? = none ∧
      (parse t.render.toList).boundNames = t.bindings ∧
      ∃ a b, objectOf? (parse t.render.toList) metaName = some a ∧
        objectOf? (parse t.render.toList) t.story = some b ∧ (a = b ↔ t.story = metaName) ∧
        a.parts.map (pairText? (parse t.render.toList).source) = pairsOf (t.about t.blank) := by
  have reads := t.reads_statements ⟨t.render.toList, .node .program none 0 0 []⟩ component story path
    title
  obtain ⟨x, parsed, -, names, declared⟩ := parseStrict?_statements reads
    (t.render_eq.trans t.text_statements.symm)
    ⟨"import".toList, _, by
      rw [statements, List.cons_append, List.cons_append, List.flatMap_cons]
      simp only [List.append_assoc]
      rfl, isName_import⟩
  obtain ⟨same, clear⟩ := parse_of_strict parsed
  rw [names_statements] at names
  rw [declared_statements] at declared
  rw [same]
  refine ⟨clear, names, ?_⟩
  obtain ⟨a, foundA, textA, pairs⟩ := @objectOf?_of_find? x _ _ metaName declared rfl
  refine ⟨a, ?_⟩
  by_cases eq : t.story = metaName
  · rw [eq]
    exact ⟨a, foundA, foundA, iff_of_true rfl rfl, pairs⟩
  · obtain ⟨b, foundB, textB, -⟩ := @objectOf?_of_find? x _
      ⟨t.story.toList, literal (slot .args (some t.blank.args)), _⟩ t.story declared (by
        rw [List.find?_cons_of_neg (by simpa using Ne.symm eq), List.find?_cons_of_pos (by simp)])
    refine ⟨b, foundA, foundB, iff_of_false (fun same => ?_) eq, pairs⟩
    have texts := (textA.symm.trans (congrArg _ same)).trans textB
    have letters : Key.title.text.toList.head? = (Key.region .args).text.toList.head? :=
      literal_inj texts
    exact absurd letters (by decide)

theorem any_about (t : StoryTemplate) (r : Region) :
    (t.about t.blank).any (·.key.text == r.key) = match r with
      | .argTypes => t.argTypes
      | .args => false := by
  unfold about basics blank
  cases t.argTypes <;> cases r <;> rfl

/-- A new story is updated even if both regions are written into `meta`. -/
theorem reconcile_render {o : ReconcileOptions} (argTypes : o.generateArgTypes = t.argTypes)
    (clear : (parse t.render.toList).root.firstFault? = none) {a : Tree}
    (about : objectOf? (parse t.render.toList) metaName = some a)
    (pairs : a.parts.map (pairText? (parse t.render.toList).source) = pairsOf (t.about t.blank))
    (props : List Synth.PropDescriptor) :
    ∃ content report, reconcile t.render props o = .updated content report := by
  rw [Reconciliation.reconcile_of_clear rfl clear]
  obtain ⟨b, lined⟩ := parse_fits clear
  generalize hx : parse t.render.toList = x at about pairs lined ⊢
  have source : x.source = t.render.toList := hx ▸ parse_source
  rw [← source] at lined
  have keys (r : Region) : (Story.pairOf? x a r.key).isSome = match r with
      | .argTypes => t.argTypes
      | .args => false := by
    rw [pairOf?_isSome, pairs, any_pairsOf, any_about]
  by_cases shared : o.defaultStory = metaName
  · exact Reconciliation.ofSyntax_of_shared props (Story.isLiteral_of_objectOf? lined about) about
      shared ((keys .argTypes).trans argTypes.symm)
      (Option.not_isSome_iff_eq_none.1 (Bool.eq_false_iff.1 (keys .args)))
  · exact ⟨_, Reconciliation.ofSyntax_of_found (r := .argTypes) props lined shared
      (Option.isSome_iff_exists.2 ⟨a, about⟩)⟩

/-! ## Names that can be bound -/

def unbindable : List String :=
  ["await", "break", "case", "catch", "class", "const", "continue", "debugger", "default", "delete",
    "do", "else", "enum", "export", "extends", "false", "finally", "for", "function", "if", "import",
    "in", "instanceof", "new", "null", "return", "super", "switch", "this", "throw", "true", "try",
    "typeof", "var", "void", "while", "with", "implements", "interface", "let", "package", "private",
    "protected", "public", "static", "yield", "arguments", "eval"]

theorem isSmall_of_unbindable : ∀ n ∈ unbindable, Identity.isSmall n = true := by decide

def fixedNames : List String := ["Meta", "StoryObj", Synth.actionHelper, metaName]

theorem forall_mem_bindings {p : String → Prop} (fixed : ∀ n ∈ fixedNames, p n) :
    (∀ n ∈ t.bindings, p n) ↔ p t.component ∧ p t.story := by
  simp only [fixedNames, List.forall_mem_cons] at fixed
  obtain ⟨meta_, storyObj, helper, about, -⟩ := fixed
  unfold bindings
  cases t.actions <;> simp [meta_, storyObj, helper, about]

theorem nodup_bindings (helper : t.component ≠ Synth.actionHelper) (about : t.component ≠ metaName) :
    t.bindings.Nodup ↔ t.component ∉ ["Meta", "StoryObj"] ∧
      t.story ∉ ["Meta", "StoryObj", t.component, metaName] ∧
        (t.actions = true → t.story ≠ Synth.actionHelper) := by
  unfold bindings
  cases t.actions <;>
    simp_all [Synth.actionHelper, metaName, eq_comm] <;> tauto

end

end StoryTemplate

namespace ProjectConfig

theorem isIdentifier_of_valid {c : ProjectConfig} (valid : c.fault? = none) :
    isIdentifier c.story.defaultName = true := by
  unfold fault? at valid
  split at valid
  · cases valid
  split at valid
  · cases valid
  split at valid
  · cases valid
  split at valid
  · cases valid
  split at valid
  · cases valid
  next identifier => simpa using identifier

end ProjectConfig

namespace StoryTemplate

open Story (objectOf?)

theorem component_template (s : Settings) (p : Path) :
    (s.template p (s.nameOf p)).component = (Identity.displayName p s.componentsRoot).text := by
  rw [Settings.template, Settings.nameOf]

def storyCalledClass : ProjectConfig :=
  { ProjectConfig.initial with
    story := { ProjectConfig.standardStory with defaultName := "class" } }

end StoryTemplate

end PropStories
