import PropStories.Synth.Prop
import PropStories.Tsx.Lexeme

/-!
# The syntax of default values

A default value is an empty literal of its shape, a function, the call of an action, an array or
object of such values, or `undefined` with a comment. Main statement: whatever the shapes of types
are, also of types that contain themselves, the default value has this syntax and nests at most as
deep as the options allow.
-/

namespace PropStories.Synth

open Tsx.Lexeme (isLineEnd)

/-! ## Syntax -/

def OneLine (s : String) : Prop := ∀ c ∈ s.toList, isLineEnd c = false

instance (s : String) : Decidable (OneLine s) := inferInstanceAs (Decidable (∀ c ∈ s.toList, _))

/-- The inside of a literal in single quotes: a quote and a backslash have a backslash in front,
and no line ends. -/
inductive Escaped : List Char → Prop
  | nil : Escaped []
  | plain {c : Char} {cs : List Char} (quote : c ≠ '\x27') (backslash : c ≠ '\\')
      (line : isLineEnd c = false) (more : Escaped cs) : Escaped (c :: cs)
  | escape {c : Char} {cs : List Char} (special : c = '\x27' ∨ c = '\\') (more : Escaped cs) :
      Escaped ('\\' :: c :: cs)

inductive IsKey : String → Prop
  | identifier {k : String} (h : Text.isIdentifier k = true) : IsKey k
  | quoted {w : List Char} (h : Escaped w) : IsKey ("'" ++ String.ofList w ++ "'")

def CommentText (s : String) : Prop := ¬ ['*', '/'] <:+: s.toList

instance (s : String) : Decidable (CommentText s) := inferInstanceAs (Decidable (¬ _ <:+: _))

/-- The name of an action: one line without quotes of any kind and without backslashes. -/
def ActionText (s : String) : Prop :=
  ∀ c ∈ s.toList, c ∉ ['\x27', '"', '\x60', '\\'] ∧ isLineEnd c = false

def members (ms : List (String × String)) : String :=
  ", ".intercalate (ms.map fun m => m.1 ++ ": " ++ m.2)

/-- The texts of default values whose arrays, objects and functions nest at most as deep as the
number says. -/
inductive IsDefault : Nat → String → Prop
  | string {n : Nat} : IsDefault n "''"
  | number {n : Nat} : IsDefault n "0"
  | boolean {n : Nat} : IsDefault n "false"
  | undefined {n : Nat} {c : String} (comment : CommentText c) :
      IsDefault n ("undefined /*" ++ c ++ "*/")
  | emptyArray {n : Nat} : IsDefault (n + 1) "[]"
  | array {n : Nat} {v : String} (value : IsDefault n v) : IsDefault (n + 1) ("[" ++ v ++ "]")
  | emptyObject {n : Nat} : IsDefault (n + 1) "\x7b\x7d"
  | object {n : Nat} {ms : List (String × String)} (some_ : ms ≠ [])
      (keys : ∀ m ∈ ms, IsKey m.1) (values : ∀ m ∈ ms, IsDefault n m.2) :
      IsDefault (n + 1) ("\x7b " ++ members ms ++ " \x7d")
  | function {n : Nat} : IsDefault (n + 1) "() => \x7b\x7d"
  | action {n : Nat} {w : String} (name : ActionText w) : IsDefault (n + 1) ("action('" ++ w ++ "')")

/-! ## Keys and names -/

theorem escaped_encode {cs : List Char} (h : ∀ c ∈ cs, isLineEnd c = false) :
    Escaped (Text.Quoted.encode cs) := by
  induction cs with
  | nil => exact .nil
  | cons c cs ih =>
      have line := h c List.mem_cons_self
      have more := ih fun d hd => h d (List.mem_cons_of_mem _ hd)
      have feed : c ≠ '\n' := by rintro rfl; contradiction
      have carriage : c ≠ '\r' := by rintro rfl; contradiction
      unfold Text.Quoted.encode
      split
      next eq => exact .escape (.inr rfl) more
      next backslash =>
        split
        next eq => exact .escape (.inl rfl) more
        next quote =>
          exact .plain quote backslash line more

theorem isKey_objectKey {name : String} (h : OneLine name) : IsKey (Text.objectKey name) := by
  unfold Text.objectKey
  split
  next identifier => exact .identifier identifier
  next =>
    rw [Text.Quoted.quote_eq]
    exact .quoted (escaped_encode h)

theorem actionText_actionName {name : String} (h : OneLine name) : ActionText (actionName name) := by
  intro c hc
  rw [actionName, String.toList_ofList, List.mem_filter] at hc
  exact ⟨by simpa [and_assoc] using hc.2, h c hc.1⟩

/-! ## Comments -/

/-- Replacing the ends of comments keeps the first character. -/
theorem head?_replaceAll_ends (fuel : Nat) (cs : List Char) :
    (Text.replaceAll "*/".toList "* /".toList fuel cs).head? = cs.head? := by
  cases fuel with
  | zero => rfl
  | succ fuel =>
      cases cs with
      | nil => rfl
      | cons c cs =>
          rw [Text.replaceAll]
          split
          next rest found =>
            have := Text.afterStart?_eq_some_iff.1 found
            obtain rfl : c = '*' := (List.cons.inj this).1
            rfl
          next => rfl

theorem replaceAll_ends_closed {fuel : Nat} {cs : List Char} (h : cs.length ≤ fuel) :
    ¬ ['*', '/'] <:+: Text.replaceAll "*/".toList "* /".toList fuel cs := by
  induction fuel generalizing cs with
  | zero =>
      obtain rfl := List.length_eq_zero_iff.1 (Nat.le_zero.1 h)
      simp [Text.replaceAll]
  | succ fuel ih =>
      cases cs with
      | nil => simp [Text.replaceAll]
      | cons c cs =>
          rw [Text.replaceAll]
          split
          next rest found =>
            have eq := Text.afterStart?_eq_some_iff.1 found
            have short : rest.length ≤ fuel := by
              have := congrArg List.length eq
              simp at this h
              omega
            simpa [List.infix_cons_iff] using ih short
          next other =>
            rw [List.infix_cons_iff]
            rintro (front | inside)
            · obtain ⟨rfl, second⟩ := List.cons_prefix_cons.1 front
              have slash := head?_replaceAll_ends fuel cs
              obtain ⟨rest, eq⟩ := second
              rw [← eq] at slash
              obtain ⟨tail, rfl⟩ := List.head?_eq_some_iff.1 slash.symm
              simp [Text.afterStart?] at other
            · exact ih (by simpa using h) inside

/-- Words in front of a text and a blank behind it close no comment. -/
theorem closed_spaced {cs : List Char} (h : ¬ ['*', '/'] <:+: cs) :
    ¬ ['*', '/'] <:+: " type: ".toList ++ (cs ++ [' ']) := by
  have last : ¬ ['*', '/'] <:+: cs ++ [' '] := by
    rw [List.infix_concat_iff]
    rintro (⟨front, eq⟩ | inside)
    · have := congrArg List.getLast? eq
      simp at this
    · exact h inside
  simpa [List.infix_cons_iff] using last

theorem commentText_type (text : String) :
    CommentText (" type: " ++ (String.ofList (openCommentEnds text.toList) ++ " ")) := by
  rw [CommentText, String.toList_append, String.toList_append,
    @String.toList_ofList (openCommentEnds text.toList)]
  exact closed_spaced (replaceAll_ends_closed (Nat.le_refl _))

theorem isDefault_unrepresentable (n : Nat) (text : String) :
    IsDefault n (unrepresentable text) := by
  have eq : unrepresentable text = "undefined /*" ++
      (" type: " ++ (String.ofList (openCommentEnds text.toList) ++ " ")) ++ "*/" := by
    unfold unrepresentable
    rw [show "undefined /* type: " = "undefined /*" ++ " type: " by decide +kernel,
      show " */" = " " ++ "*/" by decide +kernel]
    simp only [String.append_assoc]
  rw [eq]
  exact .undefined (commentText_type text)

theorem isDefault_depthPlaceholder (n : Nat) : IsDefault n depthPlaceholder := by
  rw [show depthPlaceholder = "undefined /*" ++ " Max recursion depth reached " ++ "*/" by
    decide +kernel]
  exact .undefined (by decide +kernel)

theorem isDefault_nodePlaceholder (n : Nat) : IsDefault n nodePlaceholder := by
  rw [show nodePlaceholder = "undefined /*" ++ " ReactNode placeholder " ++ "*/" by
    decide +kernel]
  exact .undefined (by decide +kernel)

/-! ## Values -/

inductive Nested (service : TypeService) : TypeRef → Property → Prop
  | own {t : TypeRef} {ps : List Property} {p : Property} (shape : service.classify t = .object ps)
      (member : p ∈ ps) : Nested service t p
  | element {t e : TypeRef} {p : Property} (shape : service.classify t = .array (some e))
      (inner : Nested service e p) : Nested service t p
  | inside {t : TypeRef} {ps : List Property} {p q : Property}
      (shape : service.classify t = .object ps) (member : p ∈ ps)
      (inner : Nested service p.type q) : Nested service t q

theorem isDefault_callable {options : Options} {name : String} (h : OneLine name) (n : Nat) :
    IsDefault (n + 1) (callable options name) := by
  unfold callable
  split
  · exact .action (actionText_actionName h)
  · exact .function

/-- By induction on the levels that are left; the type plays no part in it. -/
theorem isDefault_value (options : Options) {service : TypeService} (depth : Nat) {name : String}
    {t : TypeRef} (hname : OneLine name) (hnested : ∀ p, Nested service t p → OneLine p.name) :
    IsDefault depth (value options service depth name t) := by
  induction depth generalizing name t with
  | zero => exact isDefault_depthPlaceholder 0
  | succ depth ih =>
      unfold value
      split
      next => exact .string
      next => exact .number
      next => exact .boolean
      next element shape =>
        exact .array (ih hname fun p hp => hnested p (.element shape hp))
      next => exact .emptyArray
      next => exact .emptyObject
      next properties some_ shape =>
        let ms := properties.map fun p =>
          (Text.objectKey p.name, value options service depth p.name p.type)
        have eq : ", ".intercalate (properties.map fun p => Text.objectKey p.name ++ ": " ++
            value options service depth p.name p.type) = members ms := by
          rw [members, List.map_map]
          rfl
        rw [eq]
        refine .object (by simpa [ms] using some_) (fun m hm => ?_) fun m hm => ?_
        · obtain ⟨p, hp, rfl⟩ := List.mem_map.1 hm
          exact isKey_objectKey (hnested p (.own shape hp))
        · obtain ⟨p, hp, rfl⟩ := List.mem_map.1 hm
          exact ih (hnested p (.own shape hp)) fun q hq => hnested q (.inside shape hp hq)
      next => exact isDefault_callable hname depth
      next => exact isDefault_nodePlaceholder _
      next => exact isDefault_unrepresentable _ _
      next => exact isDefault_unrepresentable _ _

/-- The default value of a property is written in the syntax of default values and nests at most as
deep as the options allow, whatever is asked about types. -/
theorem defaultValue_bounded (options : Options) (service : TypeService) (name : String)
    (t : TypeRef) (hname : OneLine name) (hnested : ∀ p, Nested service t p → OneLine p.name) :
    IsDefault options.maxDepth (defaultValue options service name t) :=
  isDefault_value options options.maxDepth hname hnested

def treeType : TypeRef := .ofName "Tree"

def treeProperties : List Property :=
  [.mk "label" (.mk (.keyword "string") "string") false none,
    .mk "child's" (.mk (.array treeType) "Tree[]") false none,
    .mk "onOpen" (.mk .function "() => void") false none]

def treeService : TypeService where
  classify t :=
    match t.form with
    | .named _ _ => .object treeProperties
    | .array e => .array (some e)
    | .function => .function
    | _ => .string
  text := TypeRef.text
  documentation? _ := none

theorem mem_treeProperties {t : TypeRef} {p : Property} (h : Nested treeService t p) :
    p ∈ treeProperties := by
  induction h with
  | own shape member =>
      simp only [treeService] at shape
      split at shape
      next => exact Shape.object.inj shape ▸ member
      all_goals cases shape
  | element shape inner ih => exact ih
  | inside shape member inner ih => exact ih

theorem defaultValue_bounded_of_tree :
    OneLine "root" ∧ (∀ p, Nested treeService treeType p → OneLine p.name) ∧
      defaultValue ⟨2, true⟩ treeService "root" treeType =
        "\x7b label: '', 'child\\'s': [undefined /* Max recursion depth reached */], " ++
          "onOpen: action('onOpen') \x7d" ∧
      IsDefault 2 (defaultValue ⟨2, true⟩ treeService "root" treeType) := by
  have hname : OneLine "root" := by decide
  have hnested : ∀ p, Nested treeService treeType p → OneLine p.name := by
    intro p hp
    have names : ∀ q ∈ treeProperties, OneLine q.name := by decide +kernel
    exact names p (mem_treeProperties hp)
  exact ⟨hname, hnested, by decide +kernel,
    defaultValue_bounded ⟨2, true⟩ treeService "root" treeType hname hnested⟩

end PropStories.Synth
