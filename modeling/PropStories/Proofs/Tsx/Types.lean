import PropStories.Proofs.Tsx.Patterns

/-!
# Types of declared values

The type of a variable is a name, or a name with the type of another variable in angle brackets.
Main statement: such types are accepted in front of a mark that ends a type.
-/

namespace PropStories.Tsx

open Cursor (behind)
open Grammar

def typeClosers : List Char := ['=', ';', '>']

def typeOpenings : List Sight := [.name languageWords, .word "typeof"]

section

variable {limit fuel n : Nat} {gap rest text w : List Char} {ts : List Tree}

/-! ## Levels of types -/

theorem accepts_type (opens : Opens typeOpenings (text ++ rest)) (closed : Closed typeClosers rest)
    (h : Accepts limit fuel primaryType n text rest ts) :
    Accepts limit (fuel + 2) (.ref .type) n text rest ts := by
  have operand : Accepts limit fuel typeOperand n text rest ts :=
    .or_right (opens.refused (by decide)) (.or_right (opens.refused (by decide))
      (.or_right (opens.refused (by decide)) (.or_right (opens.refused (by decide))
        (.or_right (opens.refused (by decide)) (h.grow (closed.refused (by decide)))))))
  have intersection : Accepts limit (fuel + 1) intersectionType n text rest ts :=
    .grow (.or_right (opens.refused (by decide)) (.ref operand)) (closed.refused (by decide))
  have union : Accepts limit (fuel + 1) unionType n text rest ts :=
    .grow (.or_right (opens.refused (by decide)) intersection) (closed.refused (by decide))
  exact .ref (.grow union (closed.refused (by decide)))

/-! ## Names -/

theorem accepts_primaryType_named (begins : Begins (.name languageWords) (text ++ rest))
    (h : Accepts limit fuel namedType n text rest ts) :
    Accepts limit fuel primaryType n text rest ts :=
  .or_right (begins.refused (by decide)) (.or_right (begins.refused (by decide))
    (.or_right (begins.refused (by decide)) (.or_right (begins.refused (by decide))
      (.or_right (begins.refused (by decide)) (.or_right (begins.refused (by decide)) h.or_left)))))

theorem accepts_typeName (h : IsPlainName w) (hgap : IsGap gap) (ends : EndsName rest)
    (noDot : (running limit fuel (markNot "." ".") (behind (n + (gap ++ w).length) rest)).result =
      none) :
    Accepts limit fuel typeName n (gap ++ w) rest
      [.node .typeIdentifier none (n + gap.length) (n + (gap ++ w).length) []] := by
  have free : String.ofList w ∉ reservedTypeWords := fun reserved =>
    h.plain (List.mem_append_left _ (List.mem_append_right _ reserved))
  have nested := refused_seq (@accepts_name limit fuel n gap rest _ .identifier w rfl hgap h.name ends
    free) noDot
  exact .or_right (node_of_none (run_seq_of_none (run_seq_of_none nested)) _)
    (accepts_name rfl hgap h.name ends free)

theorem accepts_namedType (h : IsPlainName w) (hgap : IsGap gap) (closed : Closed typeClosers rest) :
    ∃ t, Accepts limit (fuel + 2) (.ref .type) n (gap ++ w) rest [t] := by
  have ends := closed.endsName_of (by decide)
  have begins : Begins (.name languageWords) (gap ++ w ++ rest) := by
    rw [List.append_assoc]
    exact h.begins hgap ends
  exact ⟨_, accepts_type ⟨_, by simp [typeOpenings], begins⟩ closed
    (accepts_primaryType_named begins
      ((accepts_typeName h hgap ends (closed.refused (by decide))).grow
        (closed.refused (by decide))))⟩

/-! ## Types of variables -/

theorem isName_typeof : IsName "typeof".toList := ⟨⟨_, _, rfl, by decide⟩, by decide⟩

theorem accepts_typeQuery (h : IsPlainName w) (hgap : IsGap gap)
    (closed : Closed typeClosers rest) :
    ∃ t, Accepts limit (fuel + 2) (.ref .type) n (gap ++ ("typeof".toList ++ ' ' :: w)) rest [t] := by
  have ends := closed.endsName_of (by decide)
  have blank {cs : List Char} : EndsName (' ' :: cs) := endsName_of_char (by decide) (by decide)
  have keyword : Accepts limit fuel (word "typeof") n (gap ++ "typeof".toList)
      (' ' :: w ++ rest) _ := accepts_word (.token "typeof") rfl hgap isName_typeof blank
  have begins : Begins (.name languageWords) (' ' :: w ++ rest) := h.begins isGap_blank ends
  have name := @accepts_identifier limit fuel (n + (gap ++ "typeof".toList).length) rest [' '] w h
    isGap_blank ends
  have path := (name.or_left (b := wordNode "this" .this)).before_nothing
    (b := .many ((mark "?." <|> markNot "." ".") ++ (freeName .propertyIdentifier <|> privateName)))
    (many_of_none (closed.refused (by decide)))
  have plain := path.before_nothing (b := .opt (.sameLine ++ typeArguments))
    (opt_of_none (closed.refused (by decide)))
  obtain ⟨all, -, query⟩ := (keyword.seq (Reaches.or_right (a := importedType)
    (begins.refused (by decide)) plain).passes).node (k := .typeQuery) rfl
  have text : gap ++ "typeof".toList ++ ' ' :: w = gap ++ ("typeof".toList ++ ' ' :: w) :=
    List.append_assoc ..
  rw [text] at query
  have opening : Begins (.word "typeof") (gap ++ ("typeof".toList ++ ' ' :: w) ++ rest) := by
    rw [List.append_assoc, List.append_assoc]
    exact (begins_word isName_typeof blank).gap hgap
  exact ⟨_, accepts_type ⟨_, by simp [typeOpenings], opening⟩ closed
    (.or_right (opening.refused (by decide)) (.or_right (opening.refused (by decide))
      (.or_right (opening.refused (by decide)) (.or_right (opening.refused (by decide))
        (.or_right (opening.refused (by decide)) query.or_left)))))⟩

theorem accepts_genericType {v : List Char} (h : IsPlainName w) (hv : IsPlainName v)
    (hgap : IsGap gap) (closed : Closed typeClosers rest) (once : 1 ≤ limit) :
    ∃ t, Accepts limit (fuel + 4) (.ref .type) n
      (gap ++ (w ++ '<' :: ("typeof".toList ++ ' ' :: v ++ ['>']))) rest [t] := by
  have angle {cs : List Char} : Begins (.char '<') ('<' :: cs) :=
    begins_char (by decide) (by decide) _
  have ends {cs : List Char} : EndsName ('<' :: cs) := endsName_of_char (by decide) (by decide)
  have closing : Closed typeClosers (['>'] ++ rest) :=
    ⟨'>', by decide, begins_char (by decide) (by decide) _⟩
  have name := @accepts_typeName limit (fuel + 2) n _
    ('<' :: ("typeof".toList ++ ' ' :: v ++ ['>']) ++ rest) _ h hgap ends
    (angle.refused (by decide))
  have opening : Accepts limit (fuel + 2) (mark "<") (n + (gap ++ w).length) ['<']
      ("typeof".toList ++ ' ' :: v ++ (['>'] ++ rest)) _ := accepts_single rfl (by decide)
  obtain ⟨q, query⟩ := @accepts_typeQuery limit fuel (n + (gap ++ w).length + ['<'].length) _ _ _
    hv .nil closing
  have list := query.before_nothing (b := .many (mark "," ++ .ref .type))
    (many_of_none (closing.refused (by decide)))
  have more := (opening.seq list.passes).before_nothing (b := .opt (mark ","))
    (opt_of_none (closing.refused (by decide)))
  have closer {n : Nat} : Accepts limit (fuel + 2) (mark ">") n ['>'] rest _ :=
    accepts_single rfl (by decide)
  obtain ⟨all, -, arguments⟩ := (more.seq closer.passes).node (k := .typeArguments) rfl
  obtain ⟨all', -, generic⟩ := (arguments.label .typeArguments).node (k := .genericType) rfl
  obtain ⟨t, kind, grown⟩ := name.grow_once [.typeIdentifier, .nestedTypeIdentifier] generic
    (by simp) once rfl fun again => absurd again (by decide)
  rw [List.append_assoc] at grown
  have begins : Begins (.name languageWords)
      (gap ++ (w ++ '<' :: ("typeof".toList ++ ' ' :: v ++ ['>'])) ++ rest) := by
    rw [List.append_assoc, List.append_assoc]
    exact h.begins hgap ends
  exact ⟨t, accepts_type ⟨_, by simp [typeOpenings], begins⟩ closed
    (accepts_primaryType_named begins grown)⟩

end

/-! ## Types by their text -/

/-- A type wherever one may end, with the fuel that a parse has for its characters. -/
def IsType (text : List Char) : Prop :=
  ∀ ⦃limit fuel : Nat⦄, nestingPerCharacter * text.length ≤ fuel → text.length ≤ limit →
    ∀ {g rest : List Char} {n : Nat}, IsGap g → Closed typeClosers rest →
      ∃ t, Accepts limit fuel (.ref .type) n (g ++ text) rest [t]

theorem IsPlainName.isType {w : List Char} (h : IsPlainName w) : IsType w := by
  intro limit fuel enough room g rest n hgap closed
  rw [nestingPerCharacter] at enough
  have := List.length_pos_iff.2 h.name.ne_nil
  obtain ⟨fuel, rfl⟩ : ∃ f, fuel = f + 2 := ⟨fuel - 2, by omega⟩
  exact accepts_namedType h hgap closed

theorem isType_generic {w v : List Char} (h : IsPlainName w) (hv : IsPlainName v) :
    IsType (w ++ '<' :: ("typeof".toList ++ ' ' :: v ++ ['>'])) := by
  intro limit fuel enough room g rest n hgap closed
  rw [nestingPerCharacter] at enough
  rw [List.length_append, List.length_cons] at enough room
  obtain ⟨fuel, rfl⟩ : ∃ f, fuel = f + 4 := ⟨fuel - 4, by omega⟩
  exact accepts_genericType h hv hgap closed (by omega)

end PropStories.Tsx
