import PropStories.Proofs.Text.Slice
import PropStories.Story.Locate

/-!
# Lines of a source

Where the line of a place begins and ends, and what stands between two places.
-/

namespace PropStories.Story

open Text (slice isBlank)

def Ended (before : List Char) : Prop := before = [] ∨ before.getLast? = some '\n'

theorem Ended.takeWhile_reverse {before : List Char} (h : Ended before) :
    before.reverse.takeWhile (· != '\n') = [] := by
  obtain rfl | last := h
  · rfl
  · obtain ⟨front, rfl⟩ := List.getLast?_eq_some_iff.1 last
    simp

theorem takeWhile_of_not_mem {line : List Char} (h : '\n' ∉ line) (rest : List Char) :
    (line ++ rest).takeWhile (· != '\n') = line ++ rest.takeWhile (· != '\n') := by
  refine List.takeWhile_append_of_pos fun c hc => ?_
  rw [bne_iff_ne]
  rintro rfl
  exact h hc

theorem lineStart_append {before line : List Char} (h : Ended before) (plain : '\n' ∉ line)
    (behind : List Char) :
    lineStart (before ++ (line ++ behind)) (before.length + line.length) = before.length := by
  have front : (before ++ (line ++ behind)).take (before.length + line.length) =
      before ++ line := by
    rw [← List.append_assoc, ← List.length_append, List.take_left]
  rw [lineStart, front, List.reverse_append,
    takeWhile_of_not_mem (fun mem => plain (List.mem_reverse.1 mem)), h.takeWhile_reverse,
    List.append_nil, List.length_reverse, Nat.add_sub_cancel]

theorem exists_lines (text : List Char) :
    ∃ before line, text = before ++ line ∧ Ended before ∧ '\n' ∉ line := by
  let isInside : Char → Bool := (· != '\n')
  have whole := List.takeWhile_append_dropWhile (p := isInside) (l := text.reverse)
  refine ⟨(text.reverse.dropWhile isInside).reverse, (text.reverse.takeWhile isInside).reverse,
    ?_, ?_, fun mem => ?_⟩
  · rw [← List.reverse_append, whole, List.reverse_reverse]
  · have head := List.head?_dropWhile_not isInside text.reverse
    unfold Ended
    rw [List.reverse_eq_nil_iff, List.getLast?_reverse]
    cases hd : text.reverse.dropWhile isInside with
    | nil => exact .inl rfl
    | cons c cs =>
        rw [hd] at head
        exact .inr (congrArg some (by simpa [isInside] using head))
  · have inside := List.all_eq_true.1 List.all_takeWhile _ (List.mem_reverse.1 mem)
    simp [isInside] at inside

/-- The line of a place begins behind some lines, and has no line break up to that place. -/
theorem exists_line {source : List Char} {place : Nat} (h : place ≤ source.length) :
    ∃ before line, source.take place = before ++ line ∧ Ended before ∧ '\n' ∉ line ∧
      place = before.length + line.length ∧ lineStart source place = before.length := by
  obtain ⟨before, line, split, ended, plain⟩ := exists_lines (source.take place)
  have length : place = before.length + line.length := by
    rw [← List.length_append, ← split, List.length_take_of_le h]
  refine ⟨before, line, split, ended, plain, length, ?_⟩
  have := lineStart_append ended plain (source.drop place)
  rwa [← List.append_assoc, ← split, List.take_append_drop, ← length] at this

theorem lineStart_le (source : List Char) (place : Nat) : lineStart source place ≤ place :=
  Nat.sub_le _ _

def StartsLine (source : List Char) (place : Nat) : Prop :=
  place = 0 ∨ source[place - 1]? = some '\n'

theorem startsLine_lineStart {source : List Char} {place : Nat} (h : place ≤ source.length) :
    StartsLine source (lineStart source place) := by
  obtain ⟨before, line, split, ended, -, length, start⟩ := exists_line h
  rw [start]
  obtain rfl | last := ended
  · exact .inl rfl
  · obtain ⟨front, rfl⟩ := List.getLast?_eq_some_iff.1 last
    refine .inr ?_
    have inside : front.length < place := by
      rw [List.length_append, List.length_singleton] at length
      omega
    rw [List.length_append, List.length_singleton, Nat.add_sub_cancel,
      ← List.getElem?_take_of_lt inside, split]
    simp

theorem nextLine?_eq_some {source : List Char} {place next : Nat}
    (h : nextLine? source place = some next) :
    place < next ∧ source[next - 1]? = some '\n' := by
  unfold nextLine? at h
  simp only at h
  split at h
  · rename_i short
    obtain rfl := Option.some.inj h
    refine ⟨by omega, ?_⟩
    rw [Nat.add_sub_cancel, ← List.getElem?_drop]
    have whole := List.takeWhile_append_dropWhile (p := (· != '\n')) (l := source.drop place)
    have head := List.head?_dropWhile_not (· != '\n') (source.drop place)
    generalize (source.drop place).takeWhile (· != '\n') = line at short whole ⊢
    cases hd : (source.drop place).dropWhile (· != '\n') with
    | nil =>
        rw [hd, List.append_nil] at whole
        exact absurd (congrArg List.length whole) (by omega)
    | cons c cs =>
        rw [hd] at head whole
        simp only [List.head?_cons, bne_eq_false_iff_eq] at head
        rw [← whole, List.getElem?_append_right (Nat.le_refl _), Nat.sub_self, head]
        rfl
  · contradiction

theorem ended_take {source : List Char} {i : Nat} (h : source[i]? = some '\n') :
    Ended (source.take (i + 1)) := by
  refine .inr ?_
  rw [List.take_add_one, h, List.getLast?_append]
  rfl

/-! ## Indentation -/

def isIndent (c : Char) : Bool := c == ' ' || c == '\t'

theorem lineIndent_eq (source : List Char) (place : Nat) :
    lineIndent source place =
      String.ofList ((source.drop (lineStart source place)).takeWhile isIndent) := rfl

theorem isIndent_of_mem_lineIndent {source : List Char} {place : Nat} {c : Char}
    (h : c ∈ (lineIndent source place).toList) : isIndent c = true := by
  rw [lineIndent_eq, String.toList_ofList] at h
  exact List.all_eq_true.1 List.all_takeWhile c h

theorem ended_append {before more : List Char} (h : Ended before) (h' : Ended more) :
    Ended (before ++ more) := by
  obtain rfl | last := h'
  · rwa [List.append_nil]
  · exact .inr (by rw [List.getLast?_append, last]; rfl)

theorem takeWhile_append_of_exists {p : Char → Bool} {xs : List Char}
    (h : ∃ c ∈ xs, p c = false) (ys : List Char) : (xs ++ ys).takeWhile p = xs.takeWhile p := by
  rw [List.takeWhile_append, if_neg]
  intro whole
  obtain ⟨c, hc, stops⟩ := h
  have all : xs.takeWhile p = xs := (List.takeWhile_prefix p).eq_of_length whole
  rw [← all] at hc
  rw [List.all_eq_true.1 List.all_takeWhile c hc] at stops
  contradiction

/-- Indentation is read in the stretch from any line begin before up to the first other
character. -/
theorem lineIndent_append {before text : List Char} (ended : Ended before) {place : Nat}
    (h : ∃ c ∈ text.drop place, isIndent c = false) (behind : List Char) :
    lineIndent (before ++ (text ++ behind)) (before.length + place) = lineIndent text place := by
  have bound : place ≤ text.length := by
    obtain ⟨c, hc, -⟩ := h
    have := List.length_pos_of_mem hc
    rw [List.length_drop] at this
    omega
  obtain ⟨front, line, split, frontEnded, plain, length, start⟩ := exists_line bound
  have whole : before ++ (text ++ behind) =
      (before ++ front) ++ (line ++ (text.drop place ++ behind)) := by
    rw [List.append_assoc before, ← List.append_assoc front, ← split, ← List.append_assoc,
      ← List.append_assoc (text.take place), List.take_append_drop, List.append_assoc]
  have begins := lineStart_append (ended_append ended frontEnded) plain (text.drop place ++ behind)
  rw [← whole, List.length_append, Nat.add_assoc, ← length] at begins
  rw [lineIndent_eq, lineIndent_eq, begins, start, ← List.drop_drop, List.drop_left,
    List.drop_append_of_le_length (by omega), takeWhile_append_of_exists]
  obtain ⟨c, hc, stops⟩ := h
  refine ⟨c, ?_, stops⟩
  rw [show place = front.length + (place - front.length) by omega, ← List.drop_drop] at hc
  exact List.mem_of_mem_drop hc

theorem slice_split {source : List Char} {a b : Nat} (h : a ≤ b) :
    source = source.take a ++ (slice source a b ++ source.drop b) := by
  rw [Text.slice_append_drop source h, List.take_append_drop]

theorem lineIndent_of_slice {source indent : List Char} {a b : Nat} {c : Char}
    (h : slice source a b = '\n' :: (indent ++ [c])) (blank : ∀ d ∈ indent, isIndent d = true)
    (stops : isIndent c = false) :
    lineIndent source (a + 1 + indent.length) = String.ofList indent := by
  have plain : '\n' ∉ indent := fun mem => absurd (blank _ mem) (by decide)
  have order : a ≤ b := by
    rw [← Nat.not_lt]
    intro lt
    rw [Text.slice_of_le source (Nat.le_of_lt lt)] at h
    contradiction
  have inside : a ≤ source.length := by
    rw [← Nat.not_lt]
    intro lt
    rw [slice, List.drop_eq_nil_of_le (Nat.le_of_lt lt), List.take_nil] at h
    contradiction
  have split : source = (source.take a ++ ['\n']) ++ ((indent ++ [c]) ++ source.drop b) := by
    have whole := @slice_split source a b order
    rw [h] at whole
    rw [List.append_assoc, ← List.append_assoc ['\n']]
    exact whole
  have ended : Ended (source.take a ++ ['\n']) := .inr (by rw [List.getLast?_append]; rfl)
  have length : (source.take a ++ ['\n']).length = a + 1 := by
    rw [List.length_append, List.length_take_of_le inside, List.length_singleton]
  have there : c ∈ (indent ++ [c]).drop indent.length := by
    rw [List.drop_left]
    exact List.mem_singleton_self c
  have start : lineStart (indent ++ [c]) indent.length = 0 := by
    have := @lineStart_append [] indent (.inl rfl) plain [c]
    rwa [List.nil_append, List.length_nil, Nat.zero_add] at this
  rw [split, ← length, lineIndent_append ended ⟨c, there, stops⟩, lineIndent_eq, start,
    List.drop_zero, List.takeWhile_append_of_pos blank, List.takeWhile_cons, stops]
  simp

/-! ## Blank stretches -/

theorem blankBetween_eq (source : List Char) (a b : Nat) :
    blankBetween source a b = (slice source a b).all isBlank := rfl

theorem isBlank_of_blankBetween {source : List Char} {a b i : Nat} {c : Char}
    (h : blankBetween source a b = true) (left : a ≤ i) (right : i < b)
    (at_i : source[i]? = some c) : isBlank c = true := by
  rw [blankBetween_eq, List.all_eq_true] at h
  refine h c (List.mem_of_getElem? (i := i - a) ?_)
  rw [Text.getElem?_slice (by omega), show a + (i - a) = i by omega, at_i]

theorem blankBetween_mono {source : List Char} {a b c : Nat} (h : blankBetween source a c = true)
    (hb : b ≤ c) : blankBetween source a b = true := by
  rw [blankBetween_eq, List.all_eq_true] at h ⊢
  intro d hd
  refine h d ?_
  rw [slice] at hd ⊢
  exact (List.take_subset_take_left _ (by omega)) hd

end PropStories.Story
