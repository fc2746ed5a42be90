/-!
# Stretches of a text
-/

namespace PropStories.Text

variable {α : Type}

def slice (source : List α) (start stop : Nat) : List α := (source.drop start).take (stop - start)

theorem slice_zero (source : List α) (b : Nat) : slice source 0 b = source.take b := by
  rw [slice, List.drop_zero, Nat.sub_zero]

theorem slice_append {a b c : Nat} (source : List α) (hab : a ≤ b) (hbc : b ≤ c) :
    slice source a b ++ slice source b c = slice source a c := by
  have split := List.take_add (l := source.drop a) (i := b - a) (j := c - b)
  rw [List.drop_drop, show b - a + (c - b) = c - a by omega,
    show a + (b - a) = b by omega] at split
  exact split.symm

theorem slice_append_drop {a b : Nat} (source : List α) (h : a ≤ b) :
    slice source a b ++ source.drop b = source.drop a := by
  have split := List.take_append_drop (b - a) (source.drop a)
  rwa [List.drop_drop, show a + (b - a) = b by omega] at split

theorem length_slice {a b : Nat} {source : List α} (h : b ≤ source.length) :
    (slice source a b).length = b - a := by
  rw [slice, List.length_take, List.length_drop]
  omega

theorem getElem?_slice {a b i : Nat} {source : List α} (h : a + i < b) :
    (slice source a b)[i]? = source[a + i]? := by
  rw [slice, List.getElem?_take_of_lt (by omega), List.getElem?_drop]

theorem slice_drop {p a b : Nat} (source : List α) :
    slice (source.drop p) a b = slice source (p + a) (p + b) := by
  rw [slice, slice, List.drop_drop, show p + b - (p + a) = b - a by omega]

theorem slice_append_left {xs : List α} {b : Nat} (h : b ≤ xs.length) (ys : List α) (a : Nat) :
    slice (xs ++ ys) a b = slice xs a b := by
  by_cases order : a ≤ b
  · rw [slice, slice, List.drop_append_of_le_length (by omega), List.take_append_of_le_length]
    rw [List.length_drop]
    omega
  · rw [slice, slice, Nat.sub_eq_zero_of_le (by omega), List.take_zero, List.take_zero]

theorem slice_append_right (xs ys : List α) (a b : Nat) :
    slice (xs ++ ys) (xs.length + a) (xs.length + b) = slice ys a b := by
  rw [← slice_drop, List.drop_left]

theorem slice_append_append_right (xs ys zs : List α) (a b : Nat) :
    slice (xs ++ (ys ++ zs)) (xs.length + ys.length + a) (xs.length + ys.length + b) =
      slice zs a b := by
  rw [← List.append_assoc, ← List.length_append, slice_append_right]

theorem slice_middle (xs ys zs : List α) :
    slice (xs ++ (ys ++ zs)) xs.length (xs.length + ys.length) = ys := by
  rw [slice, List.drop_left, Nat.add_sub_cancel_left, List.take_left]

theorem slice_of_le (source : List α) {a b : Nat} (h : b ≤ a) : slice source a b = [] := by
  rw [slice, Nat.sub_eq_zero_of_le h, List.take_zero]

theorem slice_of_getElem? {source : List α} {i : Nat} {c : α} (h : source[i]? = some c) :
    slice source i (i + 1) = [c] := by
  obtain ⟨bound, at_i⟩ := List.getElem?_eq_some_iff.1 h
  rw [slice, Nat.add_sub_cancel_left, List.drop_eq_getElem_cons bound, at_i]
  rfl

theorem exists_of_mem_slice {source : List α} {a b : Nat} {c : α} (h : c ∈ slice source a b) :
    ∃ i, source[i]? = some c ∧ a ≤ i ∧ i < b := by
  obtain ⟨i, inside, at_i⟩ := List.getElem_of_mem h
  have short : i < b - a := Nat.lt_of_lt_of_le inside (List.length_take_le _ _)
  refine ⟨a + i, ?_, Nat.le_add_right a i, by omega⟩
  rw [← getElem?_slice (by omega : a + i < b), List.getElem?_eq_getElem inside, at_i]

theorem slice_slice {a b : Nat} (source : List α) {i j : Nat} (h : a + j ≤ b) :
    slice (slice source a b) i j = slice source (a + i) (a + j) := by
  unfold slice
  rw [List.drop_take, List.take_take, List.drop_drop, Nat.min_eq_left (by omega),
    show a + j - (a + i) = j - i by omega]

end PropStories.Text
