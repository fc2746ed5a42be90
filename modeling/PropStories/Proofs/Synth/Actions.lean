import PropStories.Proofs.Synth.Expressions
import PropStories.Proofs.Text.Occurrences

/-!
# Calls that default values record

Whether a default value records calls is seen from its text alone. Main statement: the text of a
call occurs in the value of a type just if a callable stands somewhere in the value, or if the text
of a type that no expression represents has it, or the name of a property in an object.
-/

namespace PropStories

/-! ## Texts that are written otherwise -/

namespace Text

variable {part : List Char}

def quotingMarks : List Char := ['\\', '\x27', '\n', '\r']

theorem encode_cases (c : Char) (cs : List Char) :
    (c ≠ '\r' ∧ c ∈ quotingMarks ∧
      ∃ d, (d = c ∨ d = 'n') ∧ Quoted.encode (c :: cs) = '\\' :: d :: Quoted.encode cs) ∨
    (c = '\r' ∧ Quoted.encode (c :: cs) = Quoted.encode cs) ∨
    (c ∉ quotingMarks ∧ Quoted.encode (c :: cs) = c :: Quoted.encode cs) := by
  rw [Quoted.encode]
  split
  next h => exact .inl ⟨by rw [h]; decide, by rw [h]; decide, _, .inl h.symm, rfl⟩
  next backslash =>
    split
    next h => exact .inl ⟨by rw [h]; decide, by rw [h]; decide, _, .inl h.symm, rfl⟩
    next quote =>
      split
      next h => exact .inl ⟨by rw [h]; decide, by rw [h]; decide, _, .inr rfl, rfl⟩
      next feed =>
        split
        next h => exact .inr (.inl ⟨h, rfl⟩)
        next carriage =>
          exact .inr (.inr ⟨by simp [quotingMarks, backslash, quote, feed, carriage], rfl⟩)

theorem prefix_cons_of_apart {c : Char} {cs : List Char} (apart : c ∉ part) :
    part <+: c :: cs ↔ part = [] := by
  have none_ : part <+: [] ++ c :: cs ↔ part <+: [] := prefix_append_cons apart
  rwa [List.nil_append, List.prefix_nil] at none_

/-- A text without marks begins what is quoted just if it begins the text itself. -/
theorem prefix_encode (apart : ∀ c ∈ quotingMarks, c ∉ part) (cs : List Char) :
    part <+: Quoted.encode cs ↔ part <+: cs.filter (· ≠ '\r') := by
  induction cs generalizing part with
  | nil => rfl
  | cons c cs ih =>
      obtain ⟨noReturn, mark, d, -, eq⟩ | ⟨rfl, eq⟩ | ⟨plain, eq⟩ := encode_cases c cs
      · rw [eq, List.filter_cons_of_pos (by simpa using noReturn),
          prefix_cons_of_apart (apart _ (by decide)), prefix_cons_of_apart (apart c mark)]
      · rw [eq, List.filter_cons_of_neg (by decide), ih apart]
      · have noReturn : c ≠ '\r' := fun h => plain (by rw [h]; decide)
        rw [eq, List.filter_cons_of_pos (by simpa using noReturn)]
        cases part with
        | nil => simp
        | cons d part =>
            rw [List.cons_prefix_cons, List.cons_prefix_cons,
              ih fun e he member => apart e he (List.mem_cons_of_mem _ member)]

/-- The `n` of an escaped line feed begins no occurrence. -/
theorem infix_encode (some_ : part ≠ []) (other : part.head? ≠ some 'n')
    (apart : ∀ c ∈ quotingMarks, c ∉ part) (cs : List Char) :
    part <:+: Quoted.encode cs ↔ part <:+: cs.filter (· ≠ '\r') := by
  induction cs with
  | nil => rfl
  | cons c cs ih =>
      obtain ⟨noReturn, mark, d, letter, eq⟩ | ⟨rfl, eq⟩ | ⟨plain, eq⟩ := encode_cases c cs
      · have skip : part <:+: d :: Quoted.encode cs ↔ part <:+: Quoted.encode cs := by
          obtain rfl | rfl := letter
          · exact infix_cons_of_apart some_ (apart d mark)
          · rw [List.infix_cons_iff]
            refine or_iff_right fun starts => ?_
            obtain ⟨e, part, rfl⟩ := List.exists_cons_of_ne_nil some_
            exact other (congrArg some (List.cons_prefix_cons.1 starts).1)
        rw [eq, List.filter_cons_of_pos (by simpa using noReturn),
          infix_cons_of_apart some_ (apart _ (by decide)), skip,
          infix_cons_of_apart some_ (apart c mark), ih]
      · rw [eq, List.filter_cons_of_neg (by decide), ih]
      · have noReturn : c ≠ '\r' := fun h => plain (by rw [h]; decide)
        have starts := prefix_encode apart (c :: cs)
        rw [eq, List.filter_cons_of_pos (by simpa using noReturn)] at starts
        rw [eq, List.filter_cons_of_pos (by simpa using noReturn), List.infix_cons_iff, starts, ih,
          List.infix_cons_iff]

def endMarks : List Char := ['*', '/', ' ']

theorem prefix_replaceAll (apart : ∀ c ∈ endMarks, c ∉ part) (fuel : Nat) (cs : List Char) :
    part <+: replaceAll "*/".toList "* /".toList fuel cs ↔ part <+: cs := by
  induction fuel generalizing part cs with
  | zero => rfl
  | succ fuel ih =>
      cases cs with
      | nil => rfl
      | cons c cs =>
          rw [replaceAll]
          split
          next rest found =>
            rw [afterStart?_eq_some_iff.1 found]
            exact (prefix_cons_of_apart (apart _ (by decide))).trans
              (prefix_cons_of_apart (apart _ (by decide))).symm
          next =>
            cases part with
            | nil => simp
            | cons d part =>
                rw [List.cons_prefix_cons, List.cons_prefix_cons,
                  ih fun e he member => apart e he (List.mem_cons_of_mem _ member)]

theorem infix_replaceAll (some_ : part ≠ []) (apart : ∀ c ∈ endMarks, c ∉ part) (fuel : Nat)
    (cs : List Char) : part <:+: replaceAll "*/".toList "* /".toList fuel cs ↔ part <:+: cs := by
  induction fuel generalizing cs with
  | zero => rfl
  | succ fuel ih =>
      cases cs with
      | nil => rfl
      | cons c cs =>
          have starts := prefix_replaceAll apart (fuel + 1) (c :: cs)
          rw [replaceAll] at starts ⊢
          split at starts
          next rest found =>
            have ends : ∀ d ∈ "*/".toList, d ∉ part := fun d hd => apart d (by revert d; decide)
            have opened : ∀ d ∈ "* /".toList, d ∉ part := fun d hd => apart d (by revert d; decide)
            rw [afterStart?_eq_some_iff.1 found, infix_append_of_apart some_ opened, ih,
              infix_append_of_apart some_ ends]
          next => rw [List.infix_cons_iff, starts, ih, List.infix_cons_iff]

end Text

namespace Synth

/-! ## What stands in a value -/

variable {service : TypeService} {options : Options} {depth : Nat} {t u : TypeRef}

/-- In the value of the first type, with `depth` levels left for it, stands a value of the second. -/
inductive Built (service : TypeService) : Nat → TypeRef → TypeRef → Prop
  | here {depth : Nat} {t : TypeRef} : Built service (depth + 1) t t
  | element {depth : Nat} {t e u : TypeRef} (shape : service.classify t = .array (some e))
      (inner : Built service depth e u) : Built service (depth + 1) t u
  | property {depth : Nat} {t u : TypeRef} {ps : List Property} {p : Property}
      (shape : service.classify t = .object ps) (member : p ∈ ps)
      (inner : Built service depth p.type u) : Built service (depth + 1) t u

theorem not_built_zero : ¬ Built service 0 t u := nofun

theorem built_succ : Built service (depth + 1) t u ↔ t = u ∨
    (∃ e, service.classify t = .array (some e) ∧ Built service depth e u) ∨
    ∃ ps, service.classify t = .object ps ∧ ∃ p ∈ ps, Built service depth p.type u := by
  constructor
  · intro h
    cases h with
    | here => exact .inl rfl
    | element shape inner => exact .inr (.inl ⟨_, shape, inner⟩)
    | property shape member inner => exact .inr (.inr ⟨_, shape, _, member, inner⟩)
  · rintro (rfl | ⟨e, shape, inner⟩ | ⟨ps, shape, p, member, inner⟩)
    · exact .here
    · exact .element shape inner
    · exact .property shape member inner

def callStart : List Char := ['a', 'c', 't', 'i', 'o', 'n', '(']

theorem toList_call : (actionHelper ++ "(").toList = callStart := by decide +kernel

def Calls (options : Options) (service : TypeService) (t : TypeRef) : Prop :=
  options.actions = true ∧ service.classify t = .function

/-- The value has the text of a call without being one: in the text of a type, which it shows in a
comment, or in the name of a property. -/
def Quotes (service : TypeService) (t : TypeRef) : Prop :=
  match service.classify t with
  | .literals _ | .unknown => callStart <:+: (service.text t).toList
  | .object ps => ∃ p ∈ ps, callStart <:+: p.name.toList.filter (· ≠ '\r')
  | _ => False

/-! ## Where a call begins in a value -/

theorem infix_objectKey (name : String) : callStart <:+: (Text.objectKey name).toList ↔
    callStart <:+: name.toList.filter (· ≠ '\r') := by
  unfold Text.objectKey
  split
  next identifier =>
    have plain : '(' ∉ name.toList := fun member =>
      absurd (Text.isIdentifierPart_of_mem identifier member) (by decide +kernel)
    have within : '(' ∈ callStart := by decide
    exact iff_of_false (fun inside => plain (inside.subset within))
      fun inside => plain ((List.mem_filter.1 (inside.subset within)).1)
  next =>
    rw [Text.Quoted.quote_eq, toList_single, String.toList_ofList,
      Text.infix_cons_of_apart (by decide) (by decide), Text.infix_append_cons (by decide),
      List.infix_nil, or_iff_left (by decide), Text.infix_encode (by decide) (by decide) (by decide)]

theorem infix_unrepresentable (text : String) :
    callStart <:+: (unrepresentable text).toList ↔ callStart <:+: text.toList := by
  have eq : (unrepresentable text).toList = "undefined /* type:".toList ++
      ' ' :: (openCommentEnds text.toList ++ ' ' :: ['*', '/']) := by
    have start : "undefined /* type: ".toList = "undefined /* type:".toList ++ [' '] := by
      decide +kernel
    have stop : " */".toList = [' ', '*', '/'] := by decide +kernel
    unfold unrepresentable
    generalize openCommentEnds text.toList = shown
    rw [String.toList_append, String.toList_append, @String.toList_ofList shown, start, stop,
      List.append_assoc, List.append_assoc, List.singleton_append]
  have front : ¬ callStart <:+: "undefined /* type:".toList := by decide +kernel
  have shown : callStart <:+: openCommentEnds text.toList ++ ' ' :: ['*', '/'] ↔
      callStart <:+: text.toList := by
    rw [Text.infix_append_cons (by decide), or_iff_left (by decide), openCommentEnds]
    exact Text.infix_replaceAll (by decide) (by decide) _ _
  rw [eq, Text.infix_append_cons (by decide), or_iff_right front, shown]

theorem infix_callable (name : String) :
    callStart <:+: (callable options name).toList ↔ options.actions = true := by
  unfold callable
  split
  next on =>
    refine iff_of_true ⟨[], '\x27' :: ((actionName name).toList ++ ['\x27', ')']), ?_⟩ on
    simp [callStart, actionHelper]
  next off => exact iff_of_false (by decide +kernel) off

theorem infix_object (written : Property → String) (ps : List Property) :
    callStart <:+: ("\x7b " ++ ", ".intercalate (ps.map written) ++ " \x7d").toList ↔
      ∃ p ∈ ps, callStart <:+: (written p).toList := by
  have eq : ("\x7b " ++ ", ".intercalate (ps.map written) ++ " \x7d").toList =
      '\x7b' :: ' ' :: ([',', ' '].intercalate (ps.map fun p => (written p).toList) ++
        ' ' :: ['\x7d']) := by
    simp [String.toList_intercalate, Function.comp_def]
  have pieces : callStart <:+: [',', ' '].intercalate (ps.map fun p => (written p).toList) ↔
      ∃ cs ∈ ps.map fun p => (written p).toList, callStart <:+: cs :=
    Text.infix_intercalate_iff (by decide) (by decide) _
  rw [eq, Text.infix_cons_of_apart (by decide) (by decide),
    Text.infix_cons_of_apart (by decide) (by decide), Text.infix_append_cons (by decide),
    or_iff_left (by decide), pieces]
  simp only [List.mem_map, exists_exists_and_eq_and]

theorem infix_member (name : String) (v : String) :
    callStart <:+: (Text.objectKey name ++ ": " ++ v).toList ↔
      callStart <:+: name.toList.filter (· ≠ '\r') ∨ callStart <:+: v.toList := by
  have eq : (Text.objectKey name ++ ": " ++ v).toList =
      (Text.objectKey name).toList ++ ':' :: ' ' :: v.toList := by
    rw [String.toList_append, String.toList_append, List.append_assoc]
    rfl
  rw [eq, Text.infix_append_cons (by decide), infix_objectKey,
    Text.infix_cons_of_apart (by decide) (by decide)]

/-- Without a part the marks of a value are those of the type alone. -/
theorem exists_marked_iff (noElement : ∀ e, service.classify t ≠ .array (some e))
    (noProperty : ∀ p ps, service.classify t ≠ .object (p :: ps)) {M : TypeRef → Prop} :
    (∃ u, Built service (depth + 1) t u ∧ M u) ↔ M t := by
  refine ⟨?_, fun marked => ⟨t, .here, marked⟩⟩
  rintro ⟨u, built, marked⟩
  obtain rfl | ⟨e, shape, -⟩ | ⟨ps, shape, p, member, -⟩ := built_succ.1 built
  · exact marked
  · exact absurd shape (noElement e)
  · obtain ⟨q, qs, rfl⟩ := List.exists_cons_of_ne_nil (List.ne_nil_of_mem member)
    exact absurd shape (noProperty q qs)

theorem exists_marked_array_iff {e : TypeRef} (shape : service.classify t = .array (some e))
    {M : TypeRef → Prop} (unmarked : ¬ M t) :
    (∃ u, Built service (depth + 1) t u ∧ M u) ↔ ∃ u, Built service depth e u ∧ M u := by
  constructor
  · rintro ⟨u, built, marked⟩
    obtain rfl | ⟨e', shape', built⟩ | ⟨ps, shape', -⟩ := built_succ.1 built
    · exact absurd marked unmarked
    · rw [shape] at shape'
      cases shape'
      exact ⟨u, built, marked⟩
    · rw [shape] at shape'
      cases shape'
  · rintro ⟨u, built, marked⟩
    exact ⟨u, .element shape built, marked⟩

theorem exists_marked_object_iff {ps : List Property} (shape : service.classify t = .object ps)
    {M : TypeRef → Prop} : (∃ u, Built service (depth + 1) t u ∧ M u) ↔
      M t ∨ ∃ p ∈ ps, ∃ u, Built service depth p.type u ∧ M u := by
  constructor
  · rintro ⟨u, built, marked⟩
    obtain rfl | ⟨e, shape', -⟩ | ⟨ps', shape', p, member, built⟩ := built_succ.1 built
    · exact .inl marked
    · rw [shape] at shape'
      cases shape'
    · rw [shape] at shape'
      cases shape'
      exact .inr ⟨p, member, u, built, marked⟩
  · rintro (marked | ⟨p, member, u, built, marked⟩)
    · exact ⟨t, .here, marked⟩
    · exact ⟨u, .property shape member built, marked⟩

def isConstant : Shape → Bool
  | .string | .number | .boolean | .array none | .object [] | .node => true
  | _ => false

theorem not_marked_of_constant (constant : isConstant (service.classify t) = true) :
    ¬ ∃ u, Built service (depth + 1) t u ∧ (Calls options service u ∨ Quotes service u) := by
  have other {s : Shape} (variable_ : isConstant s = false) : service.classify t ≠ s := by
    intro eq
    rw [eq, variable_] at constant
    cases constant
  rw [exists_marked_iff (fun _ => other rfl) (fun _ _ => other rfl), not_or]
  refine ⟨fun calls => other rfl calls.2, fun quotes => ?_⟩
  unfold Quotes at quotes
  split at quotes
  next shape => exact other rfl shape
  next shape => exact other rfl shape
  next ps shape =>
    cases ps with
    | nil => simp at quotes
    | cons p ps => exact other rfl shape
  next => exact quotes

theorem infix_value_iff (options : Options) (service : TypeService) (depth : Nat) (name : String)
    (t : TypeRef) : callStart <:+: (value options service depth name t).toList ↔
      ∃ u, Built service depth t u ∧ (Calls options service u ∨ Quotes service u) := by
  induction depth generalizing name t with
  | zero =>
      have plain : ¬ callStart <:+: depthPlaceholder.toList := by decide +kernel
      exact iff_of_false plain fun ⟨u, built, _⟩ => not_built_zero built
  | succ depth ih =>
      unfold value
      split
      next shape =>
        exact iff_of_false (by decide +kernel) (not_marked_of_constant (by rw [shape]; rfl))
      next shape =>
        exact iff_of_false (by decide +kernel) (not_marked_of_constant (by rw [shape]; rfl))
      next shape =>
        exact iff_of_false (by decide +kernel) (not_marked_of_constant (by rw [shape]; rfl))
      next e shape =>
        have own : ¬ (Calls options service t ∨ Quotes service t) := by
          simp [Calls, Quotes, shape]
        -- The brackets are no part of how a call begins, so an occurrence lies within the element.
        have eq : ("[" ++ value options service depth name e ++ "]").toList =
            '[' :: ((value options service depth name e).toList ++ ']' :: []) := by
          rw [String.toList_append, String.toList_append]
          rfl
        rw [eq, Text.infix_cons_of_apart (by decide) (by decide),
          Text.infix_append_cons (by decide), List.infix_nil, or_iff_left (by decide), ih,
          exists_marked_array_iff shape own]
      next shape =>
        exact iff_of_false (by decide +kernel) (not_marked_of_constant (by rw [shape]; rfl))
      next shape =>
        exact iff_of_false (by decide +kernel) (not_marked_of_constant (by rw [shape]; rfl))
      next ps some_ shape =>
        have own : Calls options service t ∨ Quotes service t ↔
            ∃ p ∈ ps, callStart <:+: p.name.toList.filter (· ≠ '\r') := by
          simp [Calls, Quotes, shape]
        rw [infix_object, exists_marked_object_iff shape, own]
        simp only [infix_member, ih, and_or_left, exists_or]
      next shape =>
        rw [infix_callable, exists_marked_iff (by simp [shape]) (by simp [shape]), Calls, Quotes,
          shape]
        simp
      next shape =>
        exact iff_of_false (by decide +kernel) (not_marked_of_constant (by rw [shape]; rfl))
      next shape =>
        rw [infix_unrepresentable, exists_marked_iff (by simp [shape]) (by simp [shape]), Calls,
          Quotes, shape]
        simp
      next shape =>
        rw [infix_unrepresentable, exists_marked_iff (by simp [shape]) (by simp [shape]), Calls,
          Quotes, shape]
        simp

end Synth

end PropStories
