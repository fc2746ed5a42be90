import PropStories.Proofs.Lists
import PropStories.Proofs.Path
import PropStories.Proofs.Synth.Expressions
import PropStories.Story.Region

/-!
# Regions as object literals

The entries of a region stand on lines of their own, each under a key made of the name of its prop.
Main statement: whatever the defaults of the props are, the args are one object literal with one pair
for each prop, as long as an accepted default is an expression also in front of a comma.
-/

namespace PropStories.Region

open Synth Tsx

def IsIndent (indent : String) : Prop := ∀ c ∈ indent.toList, Lexeme.isGap c = true

instance (indent : String) : Decidable (IsIndent indent) :=
  inferInstanceAs (Decidable (∀ c ∈ indent.toList, _))

theorem isGap_line {cs : List Char} (h : ∀ c ∈ cs, Lexeme.isGap c = true) : IsGap ('\n' :: cs) := by
  refine .blank (by decide) ?_
  induction cs with
  | nil => exact .nil
  | cons c cs ih =>
      exact .blank (h c List.mem_cons_self) (ih fun d hd => h d (List.mem_cons_of_mem _ hd))

theorem IsIndent.step {indent : String} (h : IsIndent indent) : IsIndent (indent ++ indentStep) := by
  intro c hc
  rw [String.toList_append, List.mem_append] at hc
  obtain hc | hc := hc
  · exact h c hc
  · obtain rfl : c = ' ' := by simpa [indentStep] using hc
    decide

theorem isKey_objectKey (name : String) : Tsx.IsKey (Text.objectKey name).toList := by
  unfold Text.objectKey
  split
  next identifier => exact .inl (isName_of_isIdentifier identifier)
  next => exact .inr (isString_quote name)

/-! ## The literal around the entries -/

theorem entries_cons (indent : String) (p : PropDescriptor) (ps : List PropDescriptor) (r : Region) :
    r.entries indent (p :: ps) = (r.entry indent p).append (r.entries indent ps) := rfl

theorem entries_diagnostics (indent : String) (props : List PropDescriptor) (r : Region) :
    (r.entries indent props).diagnostics =
      props.flatMap fun p => (r.entry indent p).diagnostics := by
  induction props with
  | nil => rfl
  | cons p ps ih => rw [entries_cons, Rendered.append, List.flatMap_cons, ih]

theorem render_diagnostics (r : Region) (props : List PropDescriptor) (indent : String) :
    (r.render props indent).diagnostics =
      props.flatMap fun p => (r.entry (indent ++ indentStep) p).diagnostics := by
  rw [← entries_diagnostics]
  unfold render
  dsimp only
  split <;> rfl

structure IsLine (r : Region) (indent : String) (p : PropDescriptor) (e : Tsx.Entry) : Prop where
  fits : e.Fits Keyed Standalone
  key : e.key = some (Text.objectKey p.name).toList
  text : (r.entry indent p).text.toList = indent.toList ++ (e.text ++ ',' :: (e.note ++ ['\n']))

section

variable {r : Region} {indent : String} {props : List PropDescriptor}
  {line : PropDescriptor → Tsx.Entry}

theorem entries_text (h : ∀ p ∈ props, r.IsLine indent p (line p)) :
    (r.entries indent props).text.toList =
      (props.map line).flatMap fun e => indent.toList ++ (e.text ++ ',' :: (e.note ++ ['\n'])) := by
  induction props with
  | nil => rfl
  | cons p ps ih =>
      rw [entries_cons, Rendered.append, String.toList_append, (h p List.mem_cons_self).text,
        ih fun q hq => h q (List.mem_cons_of_mem _ hq), List.map_cons, List.flatMap_cons]

theorem render_text (some_ : props ≠ [])
    (h : ∀ p ∈ props, r.IsLine (indent ++ indentStep) p (line p)) :
    (r.render props indent).text.toList = '\x7b' ::
      (inside (ownLines (indent ++ indentStep).toList indent.toList [] (props.map line)) ++
        ['\x7d']) := by
  have text := entries_text h
  have isEmpty : (r.entries (indent ++ indentStep) props).text.isEmpty = false := by
    obtain ⟨p, ps, rfl⟩ := List.exists_cons_of_ne_nil some_
    rw [Bool.eq_false_iff, ne_eq, String.isEmpty_iff, ← String.toList_eq_nil_iff, text]
    simp
  rw [render, isEmpty, if_neg Bool.false_ne_true]
  dsimp only
  rw [inside_ownLines, List.nil_append, ← text]
  simp

theorem render_literal (blank : IsIndent indent)
    (h : ∀ p ∈ props, r.IsLine (indent ++ indentStep) p (line p)) :
    let text := (r.render props indent).text.toList
    Standalone text ∧ IsLiteral text (props.map fun p =>
      ((Text.objectKey p.name).toList, (line p).core)) := by
  by_cases none : props = []
  · subst none
    exact ⟨isValue_emptyObject.standalone, isLiteral_emptyObject⟩
  · rw [render_text none h]
    exact isLiteral_ownLines (isGap_line blank.step) (isGap_line blank)
      fun p hp => ⟨(h p hp).fits, (h p hp).key⟩

end

/-! ## Fields of an entry -/

structure Field where
  key : String
  value : String

namespace Field

def entry (f : Field) : Tsx.Entry := ⟨some f.key.toList, f.value.toList, [], []⟩

def line (indent : String) (f : Field) : String := indent ++ f.key ++ ": " ++ f.value ++ ","

structure Fits (f : Field) : Prop where
  key : IsName f.key.toList
  value : IsValue f.value.toList

theorem fits_mk {key value : String} (name : Text.isIdentifier key = true)
    (h : IsValue value.toList) : Fits ⟨key, value⟩ :=
  ⟨isName_of_isIdentifier name, h⟩

end Field

def block (field indent : String) (fields : List Field) : String :=
  "\n".intercalate ("\x7b" :: fields.map (Field.line field) ++ [indent ++ "\x7d"])

theorem toList_block (field indent : String) (fields : List Field) :
    (block field indent fields).toList = '\x7b' ::
      (inside (ownLines field.toList indent.toList [] (fields.map Field.entry)) ++ ['\x7d']) := by
  have lines : ∀ start : List Char, ['\n'].intercalate (start ::
      (fields.map (fun f => (f.line field).toList) ++ [indent.toList ++ ['\x7d']])) =
      start ++ '\n' :: ((fields.map Field.entry).flatMap (fun e =>
        field.toList ++ (e.text ++ ',' :: (e.note ++ ['\n']))) ++ (indent.toList ++ ['\x7d'])) := by
    induction fields with
    | nil => simp
    | cons f fs ih =>
        intro start
        rw [List.map_cons, List.cons_append, List.intercalate_cons_cons, ih, List.map_cons,
          List.flatMap_cons]
        simp [Field.line, Field.entry, Tsx.Entry.text, Slot.lead]
  rw [block, String.toList_intercalate, inside_ownLines]
  have := lines ['\x7b']
  simpa [Function.comp_def] using this

theorem isValue_block {field indent : String} (hfield : IsIndent field) (hindent : IsIndent indent)
    {fields : List Field} (h : ∀ f ∈ fields, f.Fits) :
    IsValue (block field indent fields).toList := by
  rw [toList_block]
  exact isValue_object (ownLines_ne_nil _ _ _ _) (filled_ownLines [] (isGap_line hfield)
    (isGap_line hindent) (fun _ h => h) (List.forall_mem_map.2 fun f hf =>
      ⟨⟨_, rfl, .inl (h f hf).key⟩, (h f hf).value, .nil, fun _ h => h⟩))

def inlineObject (fields : List Field) : String :=
  "\x7b " ++ ", ".intercalate (fields.map fun f => f.key ++ ": " ++ f.value) ++ " \x7d"

theorem isValue_inlineObject {fields : List Field} (some_ : fields ≠ []) (h : ∀ f ∈ fields, f.Fits) :
    IsValue (inlineObject fields).toList := by
  have isValue := isValue_object (oneLine_ne_nil _ _ _) (filled_oneLine
    (fields.map Field.entry) isGap_blank isGap_blank (List.forall_mem_map.2 fun f hf =>
      ⟨⟨_, rfl, .inl (h f hf).key⟩, (h f hf).value, .nil, fun _ h => h⟩))
  rw [inside_oneLine _ _ (by simpa using some_)] at isValue
  simpa [inlineObject, Field.entry, Tsx.Entry.text, Slot.lead, Function.comp_def] using isValue

/-! ## Entries of the table -/

theorem isValue_quote (s : String) : IsValue (Text.Quoted.quote s).toList :=
  .string (isString_quote s)

def summary (s : String) : String := inlineObject [⟨"summary", quotedLine s⟩]

def fields (indent : String) (p : PropDescriptor) : List Field :=
  [⟨"name", Text.Quoted.quote p.name⟩,
    ⟨"type", inlineObject [⟨"name", "'" ++ p.typeName ++ "'"⟩,
      ⟨"required", if p.isOptional then "false" else "true"⟩]⟩] ++
  (p.description.map fun d => ⟨"description", Text.Quoted.quote d⟩).toList ++
  [⟨"control", controlText p.control⟩,
    ⟨"table", block (indent ++ indentStep ++ indentStep) (indent ++ indentStep)
      [⟨"type", summary p.typeSummary⟩, ⟨"defaultValue", summary p.defaultValue⟩]⟩]

theorem argType_eq (indent : String) (p : PropDescriptor) :
    argType indent p = block (indent ++ indentStep) indent (fields indent p) := by
  unfold argType descriptionLines fields
  rw [← String.toList_inj]
  cases p.description <;> simp [block, Field.line, summary, inlineObject]

structure Writable (p : PropDescriptor) : Prop where
  typeName : IsValue ("'" ++ p.typeName ++ "'").toList
  options : ∀ v ∈ p.control.options, IsValue v.toList

theorem isValue_word {w : String} (h : ∀ c ∈ w.toList, c ≠ '\\' ∧ c ≠ '\x27' ∧ c ≠ '\n' ∧ c ≠ '\r') :
    IsValue ("'" ++ w ++ "'").toList := by
  have string := isString_encode w.toList
  rw [encode_of_plain h] at string
  rw [toList_single]
  exact .string string

theorem isValue_list {vs : List String} (h : ∀ v ∈ vs, IsValue v.toList) :
    IsValue ("[" ++ ", ".intercalate vs ++ "]").toList := by
  cases vs with
  | nil => exact isValue_emptyArray
  | cons v vs =>
      have isValue := isValue_array (oneLine_ne_nil _ _ _) (filled_oneLine
        ((v :: vs).map fun v => ⟨none, v.toList, [], []⟩) .nil .nil (List.forall_mem_map.2 fun v hv =>
          ⟨rfl, h v hv, .nil, fun _ h => h⟩))
      rw [inside_oneLine _ _ (by simp)] at isValue
      simpa [Tsx.Entry.text, Slot.lead, Function.comp_def] using isValue

theorem label_plain (k : ControlKind) :
    ∀ c ∈ k.label.toList, c ≠ '\\' ∧ c ≠ '\x27' ∧ c ≠ '\n' ∧ c ≠ '\r' := by
  cases k <;> decide

theorem isValue_controlText {c : Control} (h : ∀ v ∈ c.options, IsValue v.toList) :
    IsValue (controlText c).toList := by
  unfold controlText
  split
  next => exact .constant (by decide)
  next =>
    have eq : "\x7b type: 'select', options: [" ++ ", ".intercalate c.options ++ "] \x7d" =
        inlineObject [⟨"type", "'select'"⟩,
          ⟨"options", "[" ++ ", ".intercalate c.options ++ "]"⟩] := by
      rw [← String.toList_inj]
      simp [inlineObject]
    rw [eq]
    refine isValue_inlineObject (List.cons_ne_nil _ _) fun f hf => ?_
    simp only [List.mem_cons, List.not_mem_nil, or_false] at hf
    obtain rfl | rfl := hf
    · exact Field.fits_mk (by decide) (isValue_word (w := "select") (by decide))
    · exact Field.fits_mk (by decide) (isValue_list h)
  next => exact isValue_word (label_plain c.kind)

theorem isValue_summary (s : String) : IsValue (summary s).toList :=
  isValue_inlineObject (List.cons_ne_nil _ _) fun f hf => by
    obtain rfl := List.mem_singleton.1 hf
    exact Field.fits_mk (by decide) (isValue_quote _)

theorem isValue_argType {indent : String} (blank : IsIndent indent) {p : PropDescriptor}
    (h : Writable p) : IsValue (argType indent p).toList := by
  rw [argType_eq]
  refine isValue_block blank.step blank fun f hf => ?_
  simp only [fields, List.mem_append, List.mem_cons, List.not_mem_nil, or_false,
    Option.mem_toList, Option.map_eq_some_iff] at hf
  obtain ((rfl | rfl) | ⟨d, -, rfl⟩) | rfl | rfl := hf
  · exact Field.fits_mk (by decide) (isValue_quote _)
  · refine Field.fits_mk (by decide) (isValue_inlineObject (List.cons_ne_nil _ _) fun f hf => ?_)
    simp only [List.mem_cons, List.not_mem_nil, or_false] at hf
    obtain rfl | rfl := hf
    · exact Field.fits_mk (by decide) h.typeName
    · refine Field.fits_mk (by decide) ?_
      split <;> exact .constant (by decide)
  · exact Field.fits_mk (by decide) (isValue_quote _)
  · exact Field.fits_mk (by decide) (isValue_controlText h.options)
  · refine Field.fits_mk (by decide) (isValue_block blank.step.step blank.step fun f hf => ?_)
    simp only [List.mem_cons, List.not_mem_nil, or_false] at hf
    obtain rfl | rfl := hf
    all_goals exact Field.fits_mk (by decide) (isValue_summary _)

/-! ## Lines -/

section

variable {indent : String} {p : PropDescriptor}

theorem table_line (blank : IsIndent indent) (h : Writable p) :
    argTypes.IsLine indent p
        ⟨some (Text.objectKey p.name).toList, (argType indent p).toList, [], []⟩ ∧
      (argTypes.entry indent p).diagnostics = [] := by
  have isValue := isValue_argType blank h
  have isExpression := (isSpaced_of_value isValue).isExpression
  constructor
  · refine ⟨⟨⟨_, rfl, isKey_objectKey _⟩, isValue.standalone, .nil, fun _ h => h⟩, rfl, ?_⟩
    simp [entry, isExpression, Tsx.Entry.text, Slot.lead]
  · simp [entry, isExpression]

def shown (p : PropDescriptor) : String :=
  if Tsx.isExpression p.defaultValue then p.defaultValue else "undefined"

def remark (p : PropDescriptor) : List Char :=
  if Tsx.isExpression p.defaultValue then []
  else " // unparsable default: ".toList ++ (Text.singleSpaced p.defaultValue).toList

theorem isBlank_of_isLineEnd {c : Char} (h : Lexeme.isLineEnd c = true) : Text.isBlank c = true := by
  simp only [Lexeme.isLineEnd, Bool.or_eq_true, beq_iff_eq] at h
  obtain ((rfl | rfl) | h) | h := h
  · decide
  · decide
  all_goals simp [Text.isBlank, h]

theorem oneLine_singleSpaced (s : String) : OneLine (Text.singleSpaced s) := by
  intro c hc
  rw [Text.singleSpaced, String.toList_intercalate] at hc
  obtain hc | ⟨w, hw, hc⟩ := Lists.mem_intercalate hc
  · obtain rfl : c = ' ' := by simpa using hc
    decide
  · obtain ⟨v, hv, rfl⟩ := List.mem_map.1 hw
    obtain ⟨u, hu, rfl⟩ := List.mem_map.1 hv
    rw [String.toList_ofList] at hc
    have proper := Text.of_mem_splitWhere (List.mem_filter.1 hu).1 c hc
    by_contra line
    exact absurd (isBlank_of_isLineEnd (by simpa using line)) (by simpa using proper)

theorem isGap_remark (p : PropDescriptor) (g : List Char) (h : IsGap ('\n' :: g)) :
    IsGap (remark p ++ '\n' :: g) := by
  unfold remark
  split
  · exact h
  · have body : ∀ c ∈ " unparsable default: ".toList ++
        (Text.singleSpaced p.defaultValue).toList, Lexeme.isLineEnd c = false := by
      intro c hc
      obtain hc | hc := List.mem_append.1 hc
      · exact (by decide : ∀ c ∈ " unparsable default: ".toList, Lexeme.isLineEnd c = false) c hc
      · exact oneLine_singleSpaced _ c hc
    exact .blank (c := ' ') (by decide) (.line body (by decide) h)

theorem args_line (h : IsSpaced Standalone (shown p).toList) :
    ∃ e, args.IsLine indent p e ∧ ∃ tail, IsGap tail ∧ e.core ++ tail = (shown p).toList := by
  obtain ⟨e, fits, text, key, note, tail⟩ := @IsSpaced.exists_entry Keyed _ _ _ h
    ⟨_, rfl, isKey_objectKey p.name⟩ _ (isGap_remark p)
  refine ⟨e, ⟨fits, key, ?_⟩, tail⟩
  rw [text, note]
  unfold entry shown remark
  dsimp only
  split
  · simp [Slot.lead]
  · simp [Slot.lead]

theorem args_diagnostics (indent : String) (p : PropDescriptor) : (args.entry indent p).diagnostics =
    if Tsx.isExpression p.defaultValue then [] else [.defaultReplaced p.name p.defaultValue] := by
  unfold entry
  dsimp only
  split <;> rfl

theorem exists_line (blank : IsIndent indent) (writable : Writable p)
    (default : IsSpaced IsValue p.defaultValue.toList) (r : Region) :
    (∃ e, r.IsLine indent p e) ∧ (r.entry indent p).diagnostics = [] := by
  cases r with
  | argTypes => exact ⟨⟨_, (table_line blank writable).1⟩, (table_line blank writable).2⟩
  | args =>
      have isExpression := default.isExpression
      constructor
      · have same : shown p = p.defaultValue := if_pos isExpression
        obtain ⟨v, tail, eq, value, gap⟩ := default
        obtain ⟨e, line, -⟩ := @args_line indent p
          ⟨v, tail, same ▸ eq, value.standalone, gap⟩
        exact ⟨e, line⟩
      · rw [args_diagnostics, if_pos isExpression]

end

/-! ## Defaults of any kind -/

theorem render_args_diagnostics (props : List PropDescriptor) (indent : String) :
    (args.render props indent).diagnostics =
      (props.filter fun p => !Tsx.isExpression p.defaultValue).map fun p =>
        .defaultReplaced p.name p.defaultValue := by
  rw [render_diagnostics]
  induction props with
  | nil => rfl
  | cons p ps ih =>
      rw [List.flatMap_cons, ih, args_diagnostics, List.filter_cons]
      cases Tsx.isExpression p.defaultValue <;> rfl

/-- If every accepted default is an expression wherever one may end, perhaps with a gap behind it,
then the args are one object literal, an expression wherever one may end, and each prop is one pair:
with its default, or with `undefined` where the default was not accepted. -/
theorem args_stay_apart {props : List PropDescriptor} {indent : String} (blank : IsIndent indent)
    (h : ∀ p ∈ props, Tsx.isExpression p.defaultValue = true →
      IsSpaced Standalone p.defaultValue.toList) :
    let out := args.render props indent
    Standalone out.text.toList ∧
      (∃ value : PropDescriptor → List Char,
        IsLiteral out.text.toList
          (props.map fun p => ((Text.objectKey p.name).toList, value p)) ∧
        ∀ p ∈ props, ∃ tail, IsGap tail ∧ value p ++ tail = (shown p).toList) ∧
      out.diagnostics = (props.filter fun p => !Tsx.isExpression p.defaultValue).map fun p =>
        .defaultReplaced p.name p.defaultValue := by
  intro out
  have lines : ∀ p ∈ props, ∃ e, args.IsLine (indent ++ indentStep) p e ∧
      ∃ tail, IsGap tail ∧ e.core ++ tail = (shown p).toList := by
    intro p hp
    refine args_line ?_
    unfold shown
    split
    next accepted => exact h p hp accepted
    next => exact isSpaced_of_value (IsValue.constant (w := "undefined") (by decide)).standalone
  choose! line hline using lines
  obtain ⟨standalone, literal⟩ := render_literal blank fun p hp => (hline p hp).1
  exact ⟨standalone, ⟨fun p => (line p).core, literal, fun p hp => (hline p hp).2⟩,
    render_args_diagnostics props indent⟩

def listProp : PropDescriptor :=
  { name := "a"
    type := .ofName "A"
    isOptional := false
    description := none
    defaultValue := "[1] // one\n"
    control := ⟨.object, []⟩
    typeName := "array"
    typeSummary := "A" }

def sumProp : PropDescriptor := { listProp with name := "b-c", defaultValue := "1 +" }

theorem isSpaced_listProp : IsSpaced Standalone listProp.defaultValue.toList := by
  have one : IsNumber "1".toList :=
    isNumber_take (show Lexeme.number? "1".toList = some 1 by decide +kernel)
  have list : IsValue "[1]".toList := @isValue_list ["1"] fun v hv => by
    rw [List.mem_singleton.1 hv]
    exact .number one
  refine ⟨"[1]".toList, " // one\n".toList, by decide, list.standalone, ?_⟩
  exact .blank (by decide) (@IsGap.line " one".toList _ _ (by decide) (by decide)
    (.blank (by decide) .nil))

theorem args_stay_apart_of_comment :
    let out := args.render [listProp, sumProp] ""
    out.text = "\x7b\n  a: [1] // one\n,\n  'b-c': undefined, // unparsable default: 1 +\n\x7d" ∧
      Standalone out.text.toList ∧ ∃ value : PropDescriptor → List Char, IsLiteral out.text.toList
        [("a".toList, value listProp), ("'b-c'".toList, value sumProp)] := by
  intro out
  have refused : Tsx.isExpression sumProp.defaultValue = false := by decide +kernel
  obtain ⟨standalone, ⟨value, literal, -⟩, -⟩ := @args_stay_apart [listProp, sumProp] ""
    (by decide) fun p hp accepted => by
      obtain rfl | rfl : p = listProp ∨ p = sumProp := by simpa using hp
      · exact isSpaced_listProp
      · rw [refused] at accepted
        cases accepted
  exact ⟨by decide +kernel, standalone, value, literal⟩

/-- In parentheses a sequence is one expression; in front of a comma it is two members. -/
example : Tsx.isExpression "1, b" = true ∧
    (args.render [{ listProp with defaultValue := "1, b" }] "").text = "\x7b\n  a: 1, b,\n\x7d" := by
  decide +kernel

end PropStories.Region
