import PropStories.Proofs.Story.Reparse

/-!
# Courses of a region

Which of the edits is made for a region depends on its literal alone; the props decide nothing but
the text of the new value.
-/

namespace PropStories.Reconciliation

open Story Tsx
open Text (slice slice_zero slice_append_right)

variable {x : Syntax} {object : Tree} {r : Region} {props : List Synth.PropDescriptor}

def rendered (r : Region) (props : List Synth.PropDescriptor) (indent : List Char) : List Char :=
  (r.render props (String.ofList indent)).text.toList

def ahead (r : Region) (front indent : List Char) : List Char :=
  front ++ '\n' :: (indent ++ (r.key.toList ++ ": ".toList))

def insertion (r : Region) (props : List Synth.PropDescriptor)
    (front indent behind : List Char) : List Char :=
  ahead r front indent ++ (rendered r props indent ++ behind)

structure Surrounds (front indent behind : List Char) : Prop where
  front : ∀ c ∈ front, isAround c = true
  indent : ∀ c ∈ indent, isIndent c = true
  behind : ∀ c ∈ behind, isAround c = true

/-! ### The text of an entry -/

theorem rendered_eq (r : Region) (props : List Synth.PropDescriptor) (indent : List Char) :
    ∃ inner, rendered r props indent = '\x7b' :: (inner ++ ['\x7d']) := by
  unfold rendered Region.render
  simp only
  split
  · refine ⟨[], ?_⟩
    show "\x7b\x7d".toList = _
    decide
  · refine ⟨'\n' :: ((r.entries (String.ofList indent ++ Region.indentStep) props).text.toList ++
      indent), ?_⟩
    simp [String.toList_append]

theorem key_eq (r : Region) : ∃ rest, r.key.toList = 'a' :: rest := by
  cases r
  · exact ⟨"rgTypes".toList, by decide⟩
  · exact ⟨"rgs".toList, by decide⟩

theorem isAround_of_isIndent {c : Char} (h : isIndent c = true) : isAround c = true := by
  rw [isIndent, Bool.or_eq_true, beq_iff_eq, beq_iff_eq] at h
  obtain rfl | rfl := h <;> decide

theorem length_ahead (r : Region) (front indent : List Char) :
    (ahead r front indent).length = front.length + 1 + indent.length + r.key.length + 2 := by
  have separator : ": ".length = 2 := by decide
  simp only [ahead, List.length_append, List.length_cons, String.length_toList]
  omega

theorem length_insertion (r : Region) (props : List Synth.PropDescriptor)
    (front indent behind : List Char) :
    (insertion r props front indent behind).length =
      (ahead r front indent).length + (rendered r props indent).length + behind.length := by
  rw [insertion, List.length_append, List.length_append, Nat.add_assoc]

theorem slice_key (r : Region) (props : List Synth.PropDescriptor)
    (front indent behind : List Char) :
    slice (insertion r props front indent behind) (front.length + 1 + indent.length)
      (front.length + 1 + indent.length + r.key.length) = r.key.toList := by
  have before : (front ++ '\n' :: indent).length = front.length + 1 + indent.length := by
    simp only [List.length_append, List.length_cons]
    omega
  have split : insertion r props front indent behind =
      (front ++ '\n' :: indent) ++ (r.key.toList ++
        (": ".toList ++ (rendered r props indent ++ behind))) := by
    simp [insertion, ahead]
  have key := slice_append_right (front ++ '\n' :: indent)
    (r.key.toList ++ (": ".toList ++ (rendered r props indent ++ behind))) 0 r.key.length
  rw [split, ← before, ← String.length_toList]
  rwa [Nat.add_zero, slice_zero, ← String.length_toList, List.take_left] at key

theorem slice_line (r : Region) (props : List Synth.PropDescriptor)
    (front indent behind : List Char) :
    slice (insertion r props front indent behind) front.length
      (front.length + (1 + indent.length + 1)) = '\n' :: (indent ++ ['a']) := by
  obtain ⟨rest, key⟩ := key_eq r
  have split : insertion r props front indent behind =
      front ++ (('\n' :: (indent ++ ['a'])) ++ (rest ++
        (": ".toList ++ (rendered r props indent ++ behind)))) := by
    simp [insertion, ahead, key]
  have length : ('\n' :: (indent ++ ['a'])).length = 1 + indent.length + 1 := by
    simp only [List.length_append, List.length_cons, List.length_nil]
    omega
  have line := slice_append_right front (('\n' :: (indent ++ ['a'])) ++ (rest ++
    (": ".toList ++ (rendered r props indent ++ behind)))) 0 (1 + indent.length + 1)
  rw [split]
  rwa [Nat.add_zero, slice_zero, ← length, List.take_left, length] at line

namespace Surrounds

variable {front indent behind : List Char} (h : Surrounds front indent behind)

include h

theorem lead : lead (insertion r props front indent behind) =
    front.length + 1 + indent.length := by
  obtain ⟨rest, key⟩ := key_eq r
  have blank : ∀ c ∈ indent, isAround c = true := fun c hc => isAround_of_isIndent (h.indent c hc)
  have newline : isAround '\n' = true := by decide
  have stops : isAround 'a' = false := by decide
  rw [Reconciliation.lead, insertion, ahead, List.append_assoc, List.cons_append,
    List.takeWhile_append_of_pos h.front, List.takeWhile_cons, newline, if_pos rfl,
    List.append_assoc, List.takeWhile_append_of_pos blank, key, List.cons_append,
    List.cons_append, List.takeWhile_cons, stops]
  simp
  omega

theorem trail : trail (insertion r props front indent behind) = behind.length := by
  obtain ⟨inner, text⟩ := rendered_eq r props indent
  have around : ∀ c ∈ behind.reverse, isAround c = true :=
    fun c hc => h.behind c (List.mem_reverse.1 hc)
  have stops : isAround '\x7d' = false := by decide
  have ending : (insertion r props front indent behind).reverse =
      behind.reverse ++ '\x7d' :: (ahead r front indent ++ '\x7b' :: inner).reverse := by
    rw [insertion, text]
    simp
  rw [Reconciliation.trail, ending, List.takeWhile_append_of_pos around, List.takeWhile_cons,
    stops]
  simp

end Surrounds

/-! ### Which edit is made -/

/-- A new entry is inserted at a place, and with surroundings, that the props have no part in. -/
def Inserts (r : Region) (p : List Synth.PropDescriptor → RegionPlan) : Prop :=
  ∃ start stop front indent behind, Surrounds front indent behind ∧
    ∀ props, (p props).edit =
      some (.inserted, ⟨start, stop, insertion r props front indent behind⟩)

inductive Course (x : Syntax) (object : Tree) (r : Region) : Prop where
  | replaces {pair value : Tree} {indent : List Char}
      (first : pairOf? x object r.key = some pair) (named : pair.child? .value = some value)
      (literal : value.kind = .object) (line : lineIndent x.source pair.start = String.ofList indent)
      (edit : ∀ props, (upsert x props r object).edit =
        some (.replaced, ⟨value.start, value.stop, rendered r props indent⟩))
  | leaves {pair : Tree} (first : pairOf? x object r.key = some pair)
      (other : ∀ value, pair.child? .value = some value → value.kind ≠ .object)
  | inserts (fresh : pairOf? x object r.key = none)
      (edit : Inserts r fun props => upsert x props r object)

theorem edit_upsert_of_other {pair : Tree} (first : pairOf? x object r.key = some pair)
    (other : ∀ value, pair.child? .value = some value → value.kind ≠ .object) :
    (upsert x props r object).edit = none := by
  unfold upsert
  rw [first]
  simp only [replaceEntry]
  split
  · rfl
  · rename_i value named
    rw [beq_eq_false_iff_ne.2 (other value named)]
    rfl

theorem lineIndent_eq_ofList (source : List Char) (place : Nat) :
    lineIndent source place = String.ofList (lineIndent source place).toList :=
  (String.ofList_toList).symm

theorem insertBehind_inserts (last : Tree) :
    Inserts r fun props => insertBehind x props r object last := by
  let indent := (lineIndent x.source last.start).toList
  have blank : ∀ c ∈ indent, isIndent c = true := fun c hc => isIndent_of_mem_lineIndent hc
  cases found : commaBehind? object last.stop with
  | some comma =>
      refine ⟨comma.stop, comma.stop, [], indent, [','], ⟨by simp, blank, by simp; decide⟩,
        fun props => ?_⟩
      simp only [insertBehind, found, insertion, ahead, rendered, indent, Edit.insert,
        String.toList_append, String.ofList_toList]
      simp
  | none =>
      refine ⟨last.stop, last.stop, [','], indent, [','], ⟨by simp; decide, blank, by simp; decide⟩,
        fun props => ?_⟩
      simp only [insertBehind, found, insertion, ahead, rendered, indent, Edit.insert,
        String.toList_append, String.ofList_toList]
      simp

theorem insertFirst_inserts : Inserts r fun props => insertFirst x props r object := by
  let outer := (lineIndent x.source object.start).toList
  let first := object.start + 1
  let last := max (object.stop - 1) first
  have blank : ∀ c ∈ outer, isIndent c = true := fun c hc => isIndent_of_mem_lineIndent hc
  have surrounds : Surrounds [] (outer ++ [' ', ' ']) (',' :: '\n' :: outer) := by
    refine ⟨by simp, fun c hc => ?_, fun c hc => ?_⟩
    · rcases List.mem_append.1 hc with hc | hc
      · exact blank c hc
      · obtain rfl : c = ' ' := by simpa using hc
        rfl
    · rcases List.mem_cons.1 hc with rfl | hc
      · rfl
      · rcases List.mem_cons.1 hc with rfl | hc
        · rfl
        · exact isAround_of_isIndent (blank c hc)
  refine ⟨if blankBetween x.source first last then first else last, last, [], _, _, surrounds,
    fun props => ?_⟩
  have indent : String.ofList (outer ++ [' ', ' ']) =
      lineIndent x.source object.start ++ Region.indentStep := by
    rw [String.ofList_append, String.ofList_toList]
    rfl
  simp only [insertFirst, insertion, ahead, rendered, indent, String.toList_append]
  have step : Region.indentStep.toList = [' ', ' '] := by decide
  simp [outer, first, last, step]

theorem course (x : Syntax) (object : Tree) (r : Region) : Course x object r := by
  cases found : pairOf? x object r.key with
  | some pair =>
      by_cases literal : ∃ value, pair.child? .value = some value ∧ value.kind = .object
      · obtain ⟨value, named, kind⟩ := literal
        refine .replaces found named kind (lineIndent_eq_ofList _ _) fun props => ?_
        unfold upsert
        rw [found]
        simp only [replaceEntry, named, kind, beq_self_eq_true, if_pos, rendered,
          String.ofList_toList]
      · exact .leaves found fun value named kind => literal ⟨value, named, kind⟩
  | none =>
      refine .inserts found ?_
      unfold upsert
      rw [found]
      cases object.parts.getLast? with
      | some last => exact insertBehind_inserts last
      | none => exact insertFirst_inserts

end PropStories.Reconciliation
