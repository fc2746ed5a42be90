/-!
# Places counted in bytes

A character of a text takes one to four bytes. A place that is counted in bytes may lie inside a
character, and a text cannot be split there.
-/

namespace PropStories.Text

def byteLength : List Char → Nat
  | [] => 0
  | c :: cs => c.utf8Size + byteLength cs

@[simp] theorem byteLength_nil : byteLength [] = 0 := rfl

@[simp] theorem byteLength_cons (c : Char) (cs : List Char) :
    byteLength (c :: cs) = c.utf8Size + byteLength cs := rfl

@[simp] theorem byteLength_append (a b : List Char) :
    byteLength (a ++ b) = byteLength a + byteLength b := by
  induction a with
  | nil => rw [List.nil_append, byteLength_nil, Nat.zero_add]
  | cons c a ih => rw [List.cons_append, byteLength_cons, ih, byteLength_cons, Nat.add_assoc]

theorem byteLength_eq_zero {cs : List Char} (h : byteLength cs = 0) : cs = [] := by
  cases cs with
  | nil => rfl
  | cons c cs =>
      have := c.utf8Size_pos
      rw [byteLength_cons] at h
      omega

theorem utf8ByteSize_ofList (cs : List Char) :
    (String.ofList cs).utf8ByteSize = byteLength cs := by
  rw [← String.size_toByteArray, String.toByteArray_ofList, List.utf8Encode,
    List.size_toByteArray]
  induction cs with
  | nil => rfl
  | cons c cs ih =>
      rw [List.flatMap_cons, List.length_append, String.length_utf8EncodeChar, ih, byteLength_cons]

/-! ## Splitting -/

/-- The parts in front of a place and behind it, unless it lies inside a character or behind the
end. -/
def splitAtByte? : List Char → Nat → Option (List Char × List Char)
  | cs, 0 => some ([], cs)
  | [], _ + 1 => none
  | c :: cs, place + 1 =>
      if c.utf8Size ≤ place + 1 then
        (splitAtByte? cs (place + 1 - c.utf8Size)).map fun (front, behind) => (c :: front, behind)
      else none

theorem splitAtByte?_append (front behind : List Char) :
    splitAtByte? (front ++ behind) (byteLength front) = some (front, behind) := by
  induction front with
  | nil => rw [byteLength_nil, splitAtByte?, List.nil_append]
  | cons c front ih =>
      have := c.utf8Size_pos
      obtain ⟨n, length⟩ : ∃ n, byteLength (c :: front) = n + 1 :=
        Nat.exists_eq_succ_of_ne_zero (by rw [byteLength_cons]; omega)
      have rest : n + 1 - c.utf8Size = byteLength front := by
        rw [← length, byteLength_cons, Nat.add_sub_cancel_left]
      rw [length, List.cons_append, splitAtByte?, if_pos, rest, ih]
      · rfl
      · rw [← length, byteLength_cons]
        exact Nat.le_add_right _ _

theorem append_of_splitAtByte? {source front behind : List Char} {place : Nat}
    (h : splitAtByte? source place = some (front, behind)) :
    source = front ++ behind ∧ byteLength front = place := by
  fun_induction splitAtByte? source place generalizing front with
  | case1 cs =>
      cases h
      exact ⟨rfl, rfl⟩
  | case2 => cases h
  | case3 c cs place fits ih =>
      obtain ⟨⟨rest, _⟩, split, eq⟩ := Option.map_eq_some_iff.1 h
      cases eq
      obtain ⟨rfl, length⟩ := ih split
      refine ⟨rfl, ?_⟩
      rw [byteLength_cons, length]
      omega
  | case4 => cases h

/-- The valid positions of a text are those behind a part of it. -/
theorem isValid_iff {source : List Char} {place : Nat} :
    (⟨place⟩ : String.Pos.Raw).IsValid (String.ofList source) ↔
      ∃ front behind, source = front ++ behind ∧ byteLength front = place := by
  rw [String.Pos.Raw.isValid_iff_exists_append]
  constructor
  · rintro ⟨front, behind, eq, here⟩
    refine ⟨front.toList, behind.toList, ?_, ?_⟩
    · rw [← String.toList_append, ← eq, String.toList_ofList]
    · rw [← utf8ByteSize_ofList, String.ofList_toList]
      exact (congrArg String.Pos.Raw.byteIdx here).symm
  · rintro ⟨front, behind, rfl, rfl⟩
    refine ⟨.ofList front, .ofList behind, String.ofList_append, ?_⟩
    rw [← utf8ByteSize_ofList]
    rfl

/-- A text can be split at its valid positions and nowhere else. -/
theorem splitAtByte?_isSome_iff {source : List Char} {place : Nat} :
    (splitAtByte? source place).isSome ↔
      (⟨place⟩ : String.Pos.Raw).IsValid (String.ofList source) := by
  rw [isValid_iff]
  constructor
  · intro some
    obtain ⟨⟨front, behind⟩, split⟩ := Option.isSome_iff_exists.1 some
    exact ⟨front, behind, append_of_splitAtByte? split⟩
  · rintro ⟨front, behind, rfl, rfl⟩
    rw [splitAtByte?_append]
    rfl

end PropStories.Text
