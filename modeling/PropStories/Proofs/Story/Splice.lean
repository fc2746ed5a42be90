import PropStories.Proofs.Text.Slice
import PropStories.Story.Edit

/-!
# Splicing

Edits made one after the other, the last one first, change a text in the same way as all of them
at once: each range is replaced by its text, and what lies between the ranges stays. Main statement:
edits whose ranges are apart can all be made, and in whatever order they are listed, the text is the
one with all of them made at once.
-/

namespace PropStories.Edit

open Text (byteLength byteLength_append byteLength_eq_zero isValid_iff length_slice slice slice_append
  slice_append_drop slice_zero splitAtByte? splitAtByte?_append splitAtByte?_isSome_iff)

/-- The text from a place on with all edits made, which are given from the first to the last. -/
def spliceFrom (source : List Char) : Nat → List Edit → List Char
  | a, [] => source.drop a
  | a, e :: es => slice source a e.start ++ e.text ++ spliceFrom source e.stop es

/-- The edits follow one another, none reaching into the next, up to the bound. -/
def InOrder (bound : Nat) : Nat → List Edit → Prop
  | a, [] => a ≤ bound
  | a, e :: es => a ≤ e.start ∧ e.start ≤ e.stop ∧ InOrder bound e.stop es

theorem InOrder.le {bound a : Nat} {es : List Edit} (h : InOrder bound a es) : a ≤ bound := by
  induction es generalizing a with
  | nil => exact h
  | cons e es ih => exact Nat.le_trans h.1 (Nat.le_trans h.2.1 (ih h.2.2))

theorem InOrder.mem {bound a : Nat} {es : List Edit} (h : InOrder bound a es) {e : Edit}
    (he : e ∈ es) : a ≤ e.start ∧ e.start ≤ e.stop ∧ e.stop ≤ bound := by
  induction es generalizing a with
  | nil => contradiction
  | cons f es ih =>
      obtain ⟨front, range, rest⟩ := h
      rcases List.mem_cons.1 he with rfl | he
      · exact ⟨front, range, rest.le⟩
      · obtain ⟨left, right⟩ := ih rest he
        exact ⟨Nat.le_trans front (Nat.le_trans range left), right⟩

theorem InOrder.mono {bound a b : Nat} {es : List Edit} (h : InOrder bound b es) (hab : a ≤ b) :
    InOrder bound a es := by
  cases es with
  | nil => exact Nat.le_trans hab h
  | cons e es => exact ⟨Nat.le_trans hab h.1, h.2⟩

theorem spliceFrom_eq {source : List Char} {a b : Nat} {es : List Edit}
    (order : InOrder source.length b es) (hab : a ≤ b) :
    spliceFrom source a es = slice source a b ++ spliceFrom source b es := by
  cases es with
  | nil => exact (slice_append_drop source hab).symm
  | cons e es =>
      rw [spliceFrom, spliceFrom, ← slice_append source hab order.1]
      simp only [List.append_assoc]

theorem InOrder.of_pairwise {bound a : Nat} {es : List Edit} (start : a ≤ bound)
    (ranges : ∀ e ∈ es, a ≤ e.start ∧ e.start ≤ e.stop ∧ e.stop ≤ bound)
    (behind : es.Pairwise fun e f => e.stop ≤ f.start) : InOrder bound a es := by
  induction es generalizing a with
  | nil => exact start
  | cons e es ih =>
      obtain ⟨front, range, le⟩ := ranges e List.mem_cons_self
      obtain ⟨next, behind⟩ := List.pairwise_cons.1 behind
      refine ⟨front, range, ih le (fun f hf => ⟨next f hf, ?_⟩) behind⟩
      exact (ranges f (List.mem_cons_of_mem e hf)).2

theorem InOrder.starts {bound a : Nat} {es : List Edit} (h : InOrder bound a es)
    (distinct : es.Pairwise fun e f => e.start ≠ f.start) :
    es.Pairwise fun e f => e.start < f.start := by
  induction es generalizing a with
  | nil => exact .nil
  | cons e es ih =>
      obtain ⟨-, range, rest⟩ := h
      obtain ⟨different, distinct⟩ := List.pairwise_cons.1 distinct
      refine .cons (fun f hf => ?_) (ih rest distinct)
      have behind := (rest.mem hf).1
      exact Nat.lt_of_le_of_ne (Nat.le_trans range behind) (different f hf)

/-! ## All edits at once -/

/-- A text becomes another one by edits that are given from the first to the last: the range of each
is replaced by its text, and what lies between them stays. The places count bytes, and the text
begins at the given one. -/
inductive Replaced : Nat → List Char → List Edit → List Char → Prop where
  | rest (place : Nat) (source : List Char) : Replaced place source [] source
  | range {place : Nat} {source text : List Char} {es : List Edit} (between old new : List Char)
      (more : Replaced (place + byteLength (between ++ old)) source es text) :
      Replaced place (between ++ (old ++ source))
        (⟨place + byteLength between, place + byteLength (between ++ old), new⟩ :: es)
        (between ++ (new ++ text))

theorem splice?_append (front old new behind : List Char) :
    splice? (front ++ old ++ behind) ⟨byteLength front, byteLength (front ++ old), new⟩ =
      some (front ++ (new ++ behind)) := by
  have range : byteLength front ≤ byteLength (front ++ old) := by
    rw [byteLength_append]
    exact Nat.le_add_right _ _
  have start : splitAtByte? (front ++ old ++ behind) (byteLength front) =
      some (front, old ++ behind) := by
    rw [List.append_assoc]
    exact splitAtByte?_append front _
  have stop := splitAtByte?_append (front ++ old) behind
  simp only [splice?, if_pos range, start, stop]
  rw [List.append_assoc]

namespace Replaced

variable {place : Nat} {source text : List Char} {es : List Edit}

/-- Made from the last to the first, edits find the places in front of them unchanged. -/
theorem foldlM_splice? {front : List Char} (h : Replaced (byteLength front) source es text) :
    es.reverse.foldlM splice? (front ++ source) = some (front ++ text) := by
  generalize here : byteLength front = place at h
  induction h generalizing front with
  | rest => rfl
  | @range place source text es between old new _ ih =>
      have behind : es.reverse.foldlM splice? (front ++ (between ++ old) ++ source) =
          some (front ++ (between ++ old) ++ text) :=
        ih (by rw [byteLength_append front, here])
      have last := splice?_append (front ++ between) old new text
      simp only [List.append_assoc] at behind last
      rw [List.reverse_cons, List.foldlM_append, behind, ← here, ← byteLength_append,
        ← byteLength_append]
      exact congrArg (· >>= pure) last

theorem inOrder (h : Replaced place source es text) :
    InOrder (place + byteLength source) place es := by
  induction h with
  | rest => exact Nat.le_add_right _ _
  | range between old new _ ih =>
      refine ⟨Nat.le_add_right _ _, ?_, ?_⟩
      · simp only [byteLength_append]
        omega
      · simp only [byteLength_append] at ih ⊢
        rwa [show ∀ p a b c : Nat, p + (a + (b + c)) = p + (a + b) + c by omega]

end Replaced

/-! ## Places counted in bytes -/

/-- The range of an edit lies in a text, with its ends between characters. -/
structure Within (source : List Char) (e : Edit) : Prop where
  range : e.start ≤ e.stop
  start : (⟨e.start⟩ : String.Pos.Raw).IsValid (String.ofList source)
  stop : (⟨e.stop⟩ : String.Pos.Raw).IsValid (String.ofList source)

theorem splice?_isSome_iff {source : List Char} {e : Edit} :
    (splice? source e).isSome ↔ e.Within source := by
  have within : e.Within source ↔ e.start ≤ e.stop ∧ (splitAtByte? source e.start).isSome ∧
      (splitAtByte? source e.stop).isSome := by
    rw [splitAtByte?_isSome_iff, splitAtByte?_isSome_iff]
    exact ⟨fun h => ⟨h.range, h.start, h.stop⟩, fun ⟨range, start, stop⟩ => ⟨range, start, stop⟩⟩
  rw [within, splice?]
  by_cases range : e.start ≤ e.stop
  · cases splitAtByte? source e.start <;> cases splitAtByte? source e.stop <;> simp [range]
  · simp [range]

instance (source : List Char) (e : Edit) : Decidable (e.Within source) :=
  decidable_of_iff _ splice?_isSome_iff

theorem Within.stop_le {source : List Char} {e : Edit} (h : e.Within source) :
    e.stop ≤ byteLength source := by
  obtain ⟨front, behind, rfl, stop⟩ := isValid_iff.1 h.stop
  rw [byteLength_append, stop]
  exact Nat.le_add_right _ _

theorem exists_append_of_isValid {front source : List Char} {place : Nat}
    (valid : (⟨place⟩ : String.Pos.Raw).IsValid (String.ofList (front ++ source)))
    (le : byteLength front ≤ place) :
    ∃ before behind, source = before ++ behind ∧ byteLength (front ++ before) = place := by
  obtain ⟨whole, rest, split, rfl⟩ := isValid_iff.1 valid
  obtain ⟨before, rfl, rfl⟩ | ⟨none, rfl, rfl⟩ := List.append_eq_append_iff.1 split
  · exact ⟨before, rest, rfl, rfl⟩
  · rw [byteLength_append] at le
    obtain rfl := byteLength_eq_zero (show byteLength none = 0 by omega)
    exact ⟨[], source, rfl, by rw [List.append_nil, List.append_nil]⟩

theorem exists_replaced {bound : Nat} {front source : List Char} {es : List Edit}
    (order : InOrder bound (byteLength front) es) (within : ∀ e ∈ es, e.Within (front ++ source)) :
    ∃ text, Replaced (byteLength front) source es text := by
  induction es generalizing front source with
  | nil => exact ⟨source, .rest _ _⟩
  | cons e es ih =>
      obtain ⟨le, range, rest⟩ := order
      have here := within e List.mem_cons_self
      obtain ⟨between, behind, rfl, start⟩ := exists_append_of_isValid here.start le
      rw [← List.append_assoc] at here within
      obtain ⟨old, source, rfl, stop⟩ := exists_append_of_isValid here.stop (start ▸ range)
      rw [← List.append_assoc] at within
      rw [← stop] at rest
      obtain ⟨text, more⟩ := ih rest fun f hf => within f (List.mem_cons_of_mem e hf)
      rw [List.append_assoc, byteLength_append] at more stop
      rw [byteLength_append] at start
      refine ⟨between ++ (e.text ++ text), ?_⟩
      have replaced := more.range between old e.text
      rwa [start, stop] at replaced

theorem replaced_inBytes {source : List Char} {a : Nat} {es : List Edit}
    (order : InOrder source.length a es) :
    Replaced (byteLength (source.take a)) (source.drop a) (es.map (inBytes source))
      (spliceFrom source a es) := by
  induction es generalizing a with
  | nil => exact .rest _ _
  | cons e es ih =>
      obtain ⟨front, range, rest⟩ := order
      have place {a b : Nat} (h : a ≤ b) : byteLength (source.take b) =
          byteLength (source.take a) + byteLength (slice source a b) := by
        rw [← slice_zero, ← slice_zero, ← byteLength_append, slice_append _ (Nat.zero_le a) h]
      have more := ih rest
      rw [place (Nat.le_trans front range), ← slice_append source front range] at more
      have replaced := more.range (slice source a e.start) (slice source e.start e.stop) e.text
      rw [slice_append_drop source range, slice_append_drop source front,
        slice_append source front range, ← place front, ← place (Nat.le_trans front range),
        ← List.append_assoc] at replaced
      exact replaced

/-! ## The order of the edits -/

theorem insertByStart_perm (e : Edit) (es : List Edit) :
    (insertByStart e es).Perm (e :: es) := by
  induction es with
  | nil => exact .refl _
  | cons f fs ih =>
      rw [insertByStart]
      split
      · exact .refl _
      · exact (ih.cons f).trans (.swap e f fs)

theorem fromTheEnd_perm (es : List Edit) : (fromTheEnd es).Perm es := by
  induction es with
  | nil => exact .refl _
  | cons e es ih => exact (insertByStart_perm e _).trans (ih.cons e)

theorem insertByStart_pairwise {e : Edit} {es : List Edit}
    (h : es.Pairwise fun f g => g.start ≤ f.start) :
    (insertByStart e es).Pairwise fun f g => g.start ≤ f.start := by
  induction es with
  | nil => exact List.pairwise_singleton _ _
  | cons f fs ih =>
      rw [insertByStart]
      split
      · rename_i le
        refine .cons (fun g hg => ?_) h
        rcases List.mem_cons.1 hg with rfl | hg
        · exact le
        · exact Nat.le_trans ((List.pairwise_cons.1 h).1 g hg) le
      · rename_i gt
        refine .cons (fun g hg => ?_) (ih (List.pairwise_cons.1 h).2)
        rcases List.mem_cons.1 ((insertByStart_perm e fs).mem_iff.1 hg) with rfl | hg
        · omega
        · exact (List.pairwise_cons.1 h).1 g hg

theorem fromTheEnd_pairwise (es : List Edit) :
    (fromTheEnd es).Pairwise fun f g => g.start ≤ f.start := by
  induction es with
  | nil => exact .nil
  | cons e es ih => exact insertByStart_pairwise ih

/-- Edits that start at different places are made from the last to the first, in whatever order
they are given. -/
theorem fromTheEnd_eq_reverse {es given : List Edit} (perm : given.Perm es)
    (starts : es.Pairwise fun f g => f.start < g.start) : fromTheEnd given = es.reverse := by
  have reversed : es.reverse.Pairwise fun f g => g.start < f.start := List.pairwise_reverse.2 starts
  have distinct : ∀ f ∈ es, ∀ g ∈ es, f.start = g.start → f = g := by
    intro f hf g hg eq
    obtain ⟨i, hi, rfl⟩ := List.getElem_of_mem hf
    obtain ⟨j, hj, rfl⟩ := List.getElem_of_mem hg
    have order := List.pairwise_iff_getElem.1 starts
    rcases Nat.lt_trichotomy i j with lt | rfl | gt
    · have := order i j hi hj lt
      omega
    · rfl
    · have := order j i hj hi gt
      omega
  have same := (fromTheEnd_perm given).trans perm
  have sorted := fromTheEnd_pairwise given
  refine List.Perm.eq_of_pairwise (fun f g hf hg fg gf => ?_) sorted (reversed.imp Nat.le_of_lt)
    (same.trans es.reverse_perm.symm)
  exact distinct f (same.mem_iff.1 hf) g (List.mem_reverse.1 hg) (Nat.le_antisymm gf fg)

/-- Neither range reaches into the other. They may touch, and an empty one may stand at an end of
the other, but not inside it. -/
def Apart (e f : Edit) : Prop := e.stop ≤ f.start ∨ f.stop ≤ e.start

instance (e f : Edit) : Decidable (e.Apart f) := inferInstanceAs (Decidable (_ ∨ _))

theorem Apart.symm {e f : Edit} (h : e.Apart f) : f.Apart e := Or.symm h

theorem exists_inOrder_of_apart {bound : Nat} {es : List Edit}
    (ranges : ∀ e ∈ es, e.start ≤ e.stop ∧ e.stop ≤ bound) (apart : es.Pairwise Apart)
    (distinct : es.Pairwise fun e f => e.start ≠ f.start) :
    ∃ ordered, es.Perm ordered ∧ InOrder bound 0 ordered := by
  have perm : es.Perm (fromTheEnd es).reverse :=
    (fromTheEnd_perm es).symm.trans (List.reverse_perm _).symm
  have sorted : (fromTheEnd es).reverse.Pairwise fun e f => e.start ≤ f.start :=
    List.pairwise_reverse.2 (fromTheEnd_pairwise es)
  replace apart := (perm.pairwise_iff Apart.symm).1 apart
  replace distinct := (perm.pairwise_iff Ne.symm).1 distinct
  refine ⟨_, perm, .of_pairwise (Nat.zero_le _) (fun e he => ?_) ?_⟩
  · exact ⟨Nat.zero_le _, ranges e (perm.mem_iff.2 he)⟩
  · refine (sorted.and (apart.and distinct)).imp_of_mem fun {e f} _ hf ⟨le, apart, different⟩ => ?_
    -- were the second range in front of the first one, both would start at one place
    obtain behind | front := apart
    · exact behind
    · have := (ranges f (perm.mem_iff.2 hf)).1
      omega

/-- Two edits that are apart can be put in order, whichever of them is there. -/
theorem exists_inOrder {bound : Nat} {d e : Option Edit}
    (hd : ∀ f ∈ d, f.start ≤ f.stop ∧ f.stop ≤ bound)
    (he : ∀ f ∈ e, f.start ≤ f.stop ∧ f.stop ≤ bound)
    (apart : ∀ f ∈ d, ∀ g ∈ e, f.stop < g.start ∨ g.stop < f.start) :
    ∃ es, (d.toList ++ e.toList).Perm es ∧ InOrder bound 0 es ∧
      es.Pairwise fun f g => f.start < g.start := by
  have ranges : ∀ f ∈ d.toList ++ e.toList, f.start ≤ f.stop ∧ f.stop ≤ bound := by
    intro f hf
    obtain hf | hf := List.mem_append.1 hf
    · exact hd f (Option.mem_toList.1 hf)
    · exact he f (Option.mem_toList.1 hf)
  have pair : (d.toList ++ e.toList).Pairwise fun f g => f.Apart g ∧ f.start ≠ g.start := by
    refine List.pairwise_append.2 ⟨?_, ?_, fun f hf g hg => ?_⟩
    · cases d <;> simp
    · cases e <;> simp
    · have := apart f (Option.mem_toList.1 hf) g (Option.mem_toList.1 hg)
      have := ranges f (List.mem_append_left _ hf)
      have := ranges g (List.mem_append_right _ hg)
      unfold Apart
      omega
  have distinct := pair.imp And.right
  obtain ⟨es, perm, order⟩ := exists_inOrder_of_apart ranges (pair.imp And.left) distinct
  exact ⟨es, perm, order, order.starts ((perm.pairwise_iff Ne.symm).1 distinct)⟩

/-! ## One after the other -/

theorem applyAll?_of_replaced {source text : List Char} {es given : List Edit}
    (perm : given.Perm es) (distinct : es.Pairwise fun e f => e.start ≠ f.start)
    (h : Replaced 0 source es text) : applyAll? given source = some text := by
  rw [applyAll?, fromTheEnd_eq_reverse perm (h.inOrder.starts distinct)]
  exact (show Replaced (byteLength []) source es text from h).foldlM_splice?

theorem byteLength_take_lt {source : List Char} {a b : Nat} (lt : a < b)
    (le : b ≤ source.length) : byteLength (source.take a) < byteLength (source.take b) := by
  have split : source.take b = source.take a ++ slice source a b := by
    rw [← slice_zero, ← slice_zero, slice_append _ (Nat.zero_le a) (Nat.le_of_lt lt)]
  rw [split, byteLength_append]
  refine Nat.lt_add_of_pos_right (Nat.pos_of_ne_zero fun none => ?_)
  have length := length_slice (a := a) le
  rw [byteLength_eq_zero none, List.length_nil] at length
  omega

/-- Edits that do not overlap can be made, and change a text as if all were made at once. -/
theorem make?_eq_some {source : List Char} {es given : List Edit}
    (perm : given.Perm es) (order : InOrder source.length 0 es)
    (starts : es.Pairwise fun f g => f.start < g.start) :
    make? given source = some (spliceFrom source 0 es) := by
  refine applyAll?_of_replaced (perm.map _) (List.pairwise_map.2 ?_) (replaced_inBytes order)
  refine starts.imp_of_mem fun {e f} _ hf lt => Nat.ne_of_lt (byteLength_take_lt lt ?_)
  obtain ⟨-, range, le⟩ := order.mem hf
  exact Nat.le_trans range le

def Spliced (source : List Char) (given : List Edit) (text : List Char) : Prop :=
  ∃ es, given.Perm es ∧ InOrder source.length 0 es ∧
    es.Pairwise (fun f g => f.start < g.start) ∧ text = spliceFrom source 0 es

theorem pairwise_two {d e : Option Edit} (before : ∀ f ∈ d, ∀ g ∈ e, f.start < g.start) :
    (d.toList ++ e.toList).Pairwise fun f g => f.start < g.start := by
  cases d with
  | none =>
      cases e with
      | none => exact .nil
      | some g => exact List.pairwise_singleton _ g
  | some f =>
      cases e with
      | none => exact List.pairwise_singleton _ f
      | some g => exact List.pairwise_pair.2 (before f rfl g rfl)

theorem exists_spliceFrom_eq {source : List Char} {p a b : Nat} {es : List Edit}
    (order : InOrder source.length p es) (hp : p ≤ a) (hab : a ≤ b)
    (apart : ∀ e ∈ es, e.stop ≤ a ∨ b ≤ e.start) :
    ∃ before behind, spliceFrom source p es = before ++ slice source a b ++ behind := by
  induction es generalizing p with
  | nil =>
      refine ⟨slice source p a, source.drop b, ?_⟩
      rw [List.append_assoc, slice_append_drop source hab, slice_append_drop source hp]
      rfl
  | cons e es ih =>
      obtain ⟨front, range, rest⟩ := order
      obtain before | behind := apart e List.mem_cons_self
      · obtain ⟨text, more, eq⟩ := ih rest before fun f hf => apart f (List.mem_cons_of_mem e hf)
        exact ⟨slice source p e.start ++ e.text ++ text, more, by
          rw [spliceFrom, eq]; simp only [List.append_assoc]⟩
      · refine ⟨slice source p a, slice source b e.start ++ e.text ++ spliceFrom source e.stop es,
          ?_⟩
        rw [spliceFrom, ← slice_append source hp (Nat.le_trans hab behind),
          ← slice_append source hab behind]
        simp only [List.append_assoc]

/-! ## Edits in any order -/

/-- The text is the source with the ranges of some edits, whose places count bytes, replaced by
their texts, all at once. -/
def AtOnce (source : List Char) (given : List Edit) (text : List Char) : Prop :=
  ∃ es, given.Perm es ∧ Replaced 0 source es text

/-- Edits of ranges that are apart and start at different places can be made, give one text in
whatever order they are listed, and this is the text with all of them made at once. -/
theorem edits_made_at_once {source : List Char} {es : List Edit}
    (within : ∀ e ∈ es, e.Within source) (apart : es.Pairwise Apart)
    (distinct : es.Pairwise fun e f => e.start ≠ f.start) :
    ∃ text, (∀ given, given.Perm es → applyAll? given source = some text) ∧
      ∀ other, AtOnce source es other ↔ other = text := by
  obtain ⟨ordered, perm, order⟩ := exists_inOrder_of_apart
    (fun e he => ⟨(within e he).range, (within e he).stop_le⟩) apart distinct
  have withinOrdered : ∀ e ∈ ordered, e.Within ([] ++ source) :=
    fun e he => within e (perm.mem_iff.2 he)
  obtain ⟨text, replaced⟩ := exists_replaced (show InOrder _ (byteLength []) _ from order)
    withinOrdered
  have made {given again : List Edit} {other : List Char} (hg : given.Perm es)
      (ha : es.Perm again) (h : Replaced 0 source again other) :
      applyAll? given source = some other :=
    applyAll?_of_replaced (hg.trans ha) ((ha.pairwise_iff Ne.symm).1 distinct) h
  refine ⟨text, fun given hg => made hg perm replaced, fun other => ⟨?_, ?_⟩⟩
  · rintro ⟨again, ha, h⟩
    exact Option.some.inj ((made (.refl es) ha h).symm.trans (made (.refl es) perm replaced))
  · rintro rfl
    exact ⟨ordered, perm, replaced⟩

/-- Ranges that touch, and an insertion at the end of one. -/
theorem edits_made_at_once_of_touching :
    let source := ['é', '(', ')', '€']
    let es : List Edit := [⟨2, 4, []⟩, ⟨7, 7, ['!']⟩, ⟨4, 7, ['e', 'u']⟩, ⟨0, 2, ['ж']⟩]
    (∀ given, given.Perm es → applyAll? given source = some ['ж', 'e', 'u', '!']) ∧
      AtOnce source es ['ж', 'e', 'u', '!'] := by
  intro source es
  obtain ⟨text, made, once⟩ := @edits_made_at_once source es (by decide) (by decide) (by decide)
  have computed : applyAll? es source = some ['ж', 'e', 'u', '!'] := by decide
  obtain rfl := Option.some.inj ((made es (.refl es)).symm.trans computed)
  exact ⟨made, (once _).2 rfl⟩

-- An insertion inside a range is not apart from it: once it is made, the range ends in what has been
-- inserted, perhaps inside a character.
example : applyAll? [⟨1, 3, []⟩, ⟨2, 2, ['x']⟩] ['a', 'b', 'c', 'd'] = some ['a', 'c', 'd'] ∧
    applyAll? [⟨1, 3, []⟩, ⟨2, 2, ['é']⟩] ['a', 'b', 'c', 'd'] = none := by
  decide

end PropStories.Edit
