import PropStories.Proofs.Story.Lines
import PropStories.Proofs.Story.Literals
import PropStories.Story.Reconcile

/-!
# Where a region is written

The edit of a region lies between the braces of the literal that the region belongs to. It replaces
the value of the region's first entry, or takes that entry away, or adds one.
-/

namespace PropStories.Reconciliation

open Story Tsx

variable {x : Syntax} {object : Tree} {r : Region} {props : List Synth.PropDescriptor}

/-! ## Ranges -/

structure InBraces (source : List Char) (object : Tree) (e : Edit) : Prop where
  opening : source[object.start]? = some '\x7b'
  closing : source[object.stop - 1]? = some '\x7d'
  left : object.start < e.start
  range : e.start ≤ e.stop
  right : e.stop < object.stop

def IsComma (object comma : Tree) : Prop := comma ∈ object.children ∧ comma.kind = .token ","

/-- An entry ends here together with the comma that follows it, if only blanks come between. -/
def EndsEntry (x : Syntax) (object pair : Tree) (stop : Nat) : Prop :=
  (∃ comma, IsComma object comma ∧ pair.stop ≤ comma.start ∧ comma.stop = stop ∧
      blankBetween x.source pair.stop comma.start = true) ∨
  (stop = pair.stop ∧ ∀ comma, IsComma object comma → pair.stop ≤ comma.start →
    blankBetween x.source pair.stop comma.start = false)

/-- What may be replaced to write a region: the object literal that is the value of its first
entry; the table's first entry with its comma, perhaps with all of its lines when they hold nothing
else; nothing; or the white space of a literal without entries. -/
inductive Range (x : Syntax) (object : Tree) (r : Region) : Nat → Nat → Prop where
  | value {pair value : Tree} (first : pairOf? x object r.key = some pair)
      (named : pair.child? .value = some value) (literal : value.kind = .object) :
      Range x object r value.start value.stop
  | entry {pair : Tree} {stop : Nat} (table : r = .argTypes)
      (first : pairOf? x object r.key = some pair) (ending : EndsEntry x object pair stop) :
      Range x object r pair.start stop
  | lines {pair : Tree} {start stop next : Nat} (table : r = .argTypes)
      (first : pairOf? x object r.key = some pair) (ending : EndsEntry x object pair stop)
      (left : start ≤ pair.start) (front : blankBetween x.source start pair.start = true)
      (right : stop ≤ next) (behind : blankBetween x.source stop next = true)
      (begins : StartsLine x.source start) (ends : StartsLine x.source next) :
      Range x object r start next
  | nothing {place : Nat} : Range x object r place place
  | filler (empty : object.parts = [])
      (blank : blankBetween x.source (object.start + 1) (object.stop - 1) = true) :
      Range x object r (object.start + 1) (object.stop - 1)

/-! ## Entries -/

theorem pairOf?_mem {key : String} {pair : Tree} (h : pairOf? x object key = some pair) :
    pair ∈ object.namedChildren := List.mem_of_find?_eq_some h

theorem pairOf?_mem_parts {key : String} {pair : Tree} (h : pairOf? x object key = some pair) :
    pair ∈ object.parts := by
  have holds := List.find?_some h
  simp only [Bool.and_eq_true, beq_iff_eq] at holds
  exact List.mem_filter.2 ⟨pairOf?_mem h, by rw [holds.1]; rfl⟩

theorem commaBehind?_eq_some {place : Nat} {comma : Tree}
    (h : commaBehind? object place = some comma) :
    IsComma object comma ∧ place ≤ comma.start := by
  have holds := List.find?_some h
  simp only [Bool.and_eq_true, beq_iff_eq, decide_eq_true_eq] at holds
  exact ⟨⟨List.mem_of_find?_eq_some h, holds.1⟩, holds.2⟩

theorem IsComma.inside (literal : IsLiteral x.source object) {comma : Tree}
    (h : IsComma object comma) :
    Fits x.source comma ∧ object.start < comma.start ∧ comma.stop < object.stop :=
  literal.inside h.1 (by rw [h.2]; decide) (by rw [h.2]; decide)

/-- Behind a comma that blanks do not separate from an entry, no other comma is nearer. -/
theorem endsEntry_entryEnd (literal : IsLiteral x.source object) {pair : Tree} :
    EndsEntry x object pair (entryEnd x.source object pair) := by
  unfold entryEnd
  split
  · rename_i comma hc
    obtain ⟨isComma, behind⟩ := commaBehind?_eq_some hc
    split
    · rename_i blank
      exact .inl ⟨comma, isComma, behind, rfl, blank⟩
    · rename_i notBlank
      refine .inr ⟨rfl, fun other isOther otherBehind => ?_⟩
      obtain ⟨-, front, rest, split, before⟩ := List.find?_eq_some_iff_append.1 hc
      have order := literal.fits.lined.pairwise
      have mem := isOther.1
      rw [split] at order mem
      rcases List.mem_append.1 mem with mem | mem
      · have := before other mem
        simp [isOther.2, otherBehind] at this
      rcases List.mem_cons.1 mem with rfl | mem
      · simpa using notBlank
      · have apart := (List.pairwise_cons.1 (List.pairwise_append.1 order).2.1).1 other mem
        have inside := (isComma.inside literal).1.start_le_stop
        rw [Bool.eq_false_iff]
        intro blank
        exact notBlank (blankBetween_mono blank (Nat.le_trans inside apart))
  · rename_i none
    refine .inr ⟨rfl, fun comma isComma behind => ?_⟩
    have := List.find?_eq_none.1 none comma isComma.1
    simp [isComma.2, behind] at this

theorem EndsEntry.bounds (literal : IsLiteral x.source object) {pair : Tree} {stop : Nat}
    (inside : pair.stop < object.stop) (h : EndsEntry x object pair stop) :
    pair.stop ≤ stop ∧ stop < object.stop := by
  obtain ⟨comma, isComma, behind, rfl, -⟩ | ⟨rfl, -⟩ := h
  · obtain ⟨fits, -, right⟩ := isComma.inside literal
    exact ⟨Nat.le_trans behind fits.start_le_stop, right⟩
  · exact ⟨Nat.le_refl _, inside⟩

/-! ## Regions -/

def EditsIn (x : Syntax) (object : Tree) (r : Region) (p : RegionPlan) : Prop :=
  ∀ change e, p.edit = some (change, e) →
    InBraces x.source object e ∧ Range x object r e.start e.stop

theorem inBraces_of_bounds (literal : IsLiteral x.source object) {e : Edit}
    (left : object.start < e.start) (range : e.start ≤ e.stop) (right : e.stop < object.stop) :
    InBraces x.source object e := by
  obtain ⟨-, -, -, -, -, -, -, -, opening, closing⟩ := literal.braces
  exact ⟨opening, closing, left, range, right⟩

theorem replaceEntry_editsIn (literal : IsLiteral x.source object) {pair : Tree}
    (first : pairOf? x object r.key = some pair) :
    EditsIn x object r (replaceEntry x props r pair) := by
  intro change e he
  obtain ⟨pairFits, left, right⟩ := literal.inside_of_named (pairOf?_mem first)
  unfold replaceEntry at he
  split at he
  · contradiction
  · rename_i value named
    obtain ⟨fits, valueLeft, valueRight⟩ := fits_of_child? pairFits named
    split at he
    · rename_i kind
      obtain ⟨-, rfl⟩ := Prod.mk.inj (Option.some.inj he)
      exact ⟨inBraces_of_bounds literal (Nat.lt_of_lt_of_le left valueLeft) fits.start_le_stop
        (Nat.lt_of_le_of_lt valueRight right), .value first named (by simpa using kind)⟩
    · contradiction

theorem insertBehind_editsIn (literal : IsLiteral x.source object) {last : Tree}
    (hlast : last ∈ object.namedChildren) :
    EditsIn x object r (insertBehind x props r object last) := by
  intro change e he
  obtain ⟨fits, left, right⟩ := literal.inside_of_named hlast
  have order := fits.start_le_stop
  obtain ⟨-, rfl⟩ := Prod.mk.inj (Option.some.inj he)
  split
  · rename_i comma hc
    obtain ⟨isComma, behind⟩ := commaBehind?_eq_some hc
    obtain ⟨commaFits, commaLeft, commaRight⟩ := isComma.inside literal
    have commaOrder := commaFits.start_le_stop
    exact ⟨inBraces_of_bounds literal (Nat.lt_of_lt_of_le commaLeft commaOrder) (Nat.le_refl _)
      commaRight, .nothing⟩
  · exact ⟨inBraces_of_bounds literal (Nat.lt_of_lt_of_le left order) (Nat.le_refl _) right,
      .nothing⟩

theorem insertFirst_editsIn (literal : IsLiteral x.source object) (empty : object.parts = []) :
    EditsIn x object r (insertFirst x props r object) := by
  intro change e he
  obtain ⟨-, -, -, -, -, -, -, length, -, -⟩ := literal.braces
  have last : max (object.stop - 1) (object.start + 1) = object.stop - 1 := by omega
  simp only [insertFirst, last] at he
  obtain ⟨-, rfl⟩ := Prod.mk.inj (Option.some.inj he)
  simp only
  split
  · rename_i blank
    exact ⟨inBraces_of_bounds literal (Nat.lt_succ_self _) (by simp only; omega)
      (by simp only; omega), .filler empty blank⟩
  · exact ⟨inBraces_of_bounds literal (by simp only; omega) (Nat.le_refl _)
      (by simp only; omega), .nothing⟩

theorem upsert_editsIn (literal : IsLiteral x.source object) :
    EditsIn x object r (upsert x props r object) := by
  unfold upsert
  split
  · rename_i pair first
    exact replaceEntry_editsIn literal first
  · split
    · rename_i last hlast
      have mem : last ∈ object.parts := List.mem_of_getLast? hlast
      exact insertBehind_editsIn literal (List.mem_filter.1 mem).1
    · rename_i none
      exact insertFirst_editsIn literal (List.getLast?_eq_none_iff.1 none)

theorem stop_le_last (literal : IsLiteral x.source object) {c last : Tree}
    (found : object.parts.getLast? = some last) (hc : c ∈ object.parts) : c.stop ≤ last.stop := by
  have order : object.parts.Pairwise fun s t => s.stop ≤ t.start :=
    (lined_sublist literal.fits.lined (List.filter_sublist.trans List.filter_sublist)).pairwise
  have mem : last ∈ object.parts := List.mem_of_getLast? found
  have fits := (literal.inside_of_named (List.mem_filter.1 mem).1).1.start_le_stop
  obtain ⟨front, split⟩ := List.getLast?_eq_some_iff.1 found
  rw [split] at hc order
  rcases List.mem_append.1 hc with hc | hc
  · have := (List.pairwise_append.1 order).2.2 c hc last (List.mem_singleton_self last)
    omega
  · obtain rfl := List.mem_singleton.1 hc
    exact Nat.le_refl _

/-- All members stand in front of what is inserted. -/
theorem stop_le_of_inserted (literal : IsLiteral x.source object) {e : Edit}
    (inserted : (upsert x props r object).edit = some (.inserted, e)) {c : Tree}
    (hc : c ∈ object.parts) : c.stop ≤ e.start := by
  unfold upsert at inserted
  split at inserted
  · unfold replaceEntry at inserted
    split at inserted
    · contradiction
    · split at inserted
      · simp at inserted
      · contradiction
  · split at inserted
    · rename_i last found
      have before := stop_le_last literal found hc
      obtain ⟨-, rfl⟩ := Prod.mk.inj (Option.some.inj inserted)
      split
      · rename_i comma found
        obtain ⟨isComma, behind⟩ := commaBehind?_eq_some found
        have := (isComma.inside literal).1.start_le_stop
        simp only [Edit.insert]
        omega
      · exact before
    · rename_i none
      rw [List.getLast?_eq_none_iff.1 none] at hc
      contradiction

/-- An entry that is replaced keeps its key, so the edit lies inside the entry. -/
theorem replaceEntry_inside (literal : IsLiteral x.source object) {pair : Tree} {change : Change}
    {e : Edit} (first : pairOf? x object r.key = some pair)
    (h : (replaceEntry x props r pair).edit = some (change, e)) :
    e.start < e.stop ∧ e.stop ≤ pair.stop := by
  obtain ⟨pairFits, -, -⟩ := literal.inside_of_named (pairOf?_mem first)
  unfold replaceEntry at h
  split at h
  · contradiction
  · rename_i value named
    obtain ⟨fits, -, right⟩ := fits_of_child? pairFits named
    split at h
    · rename_i kind
      obtain ⟨-, rfl⟩ := Prod.mk.inj (Option.some.inj h)
      have value : IsLiteral x.source value := ⟨fits, by simpa using kind⟩
      obtain ⟨-, -, -, -, -, -, -, length, -, -⟩ := value.braces
      exact ⟨by simp only; omega, right⟩
    · contradiction

theorem exists_inserted (props : List Synth.PropDescriptor)
    (none : pairOf? x object r.key = none) :
    ∃ e, (upsert x props r object).edit = some (.inserted, e) := by
  unfold upsert
  rw [none]
  simp only
  split <;> exact ⟨_, rfl⟩

theorem removalRange_covers (literal : IsLiteral x.source object) {pair : Tree}
    (mem : pair ∈ object.namedChildren) :
    (removalRange x.source object pair).1 ≤ pair.start ∧
      pair.stop ≤ (removalRange x.source object pair).2 := by
  obtain ⟨-, -, right⟩ := literal.inside_of_named mem
  obtain ⟨behind, -⟩ := (endsEntry_entryEnd literal).bounds literal right
  unfold removalRange
  simp only
  split
  · rename_i next hn
    split
    · exact ⟨lineStart_le _ _, Nat.le_trans behind (Nat.le_of_lt (nextLine?_eq_some hn).1)⟩
    · exact ⟨Nat.le_refl _, behind⟩
  · exact ⟨Nat.le_refl _, behind⟩

/-- The opening brace is not blank, so the lines that are removed begin behind it. -/
theorem remove_editsIn (literal : IsLiteral x.source object) :
    EditsIn x object .argTypes (remove x .argTypes object) := by
  intro change e he
  unfold remove at he
  split at he
  · rename_i pair first
    obtain ⟨-, -, -, -, -, -, -, length, opening, closing⟩ := literal.braces
    obtain ⟨fits, left, right⟩ := literal.inside_of_named (pairOf?_mem first)
    have order := fits.start_le_stop
    have ending : EndsEntry x object pair (entryEnd x.source object pair) :=
      endsEntry_entryEnd literal
    obtain ⟨stopLeft, stopRight⟩ := ending.bounds literal right
    have entry : InBraces x.source object
          (.remove pair.start (entryEnd x.source object pair)) ∧
        Range x object .argTypes pair.start (entryEnd x.source object pair) :=
      ⟨inBraces_of_bounds literal left (Nat.le_trans order stopLeft) stopRight,
        .entry rfl first ending⟩
    obtain ⟨-, rfl⟩ := Prod.mk.inj (Option.some.inj he)
    unfold removalRange
    simp only
    split
    · rename_i next hn
      split
      · rename_i blank
        rw [Bool.and_eq_true] at blank
        obtain ⟨nextBehind, nextEnds⟩ := nextLine?_eq_some hn
        have startLeft := lineStart_le x.source pair.start
        have start : object.start < lineStart x.source pair.start := by
          rw [← Nat.not_le]
          intro before
          exact absurd (isBlank_of_blankBetween blank.1 before left opening) (by decide)
        have stop : next < object.stop := by
          rw [← Nat.not_le]
          intro behind
          exact absurd (isBlank_of_blankBetween blank.2 (by omega) (by omega) closing) (by decide)
        have bound : pair.start ≤ x.source.length := by
          have := (List.getElem?_eq_some_iff.1 closing).1
          omega
        exact ⟨inBraces_of_bounds literal start (by simp only [Edit.remove]; omega) stop,
          .lines rfl first ending startLeft blank.1 (Nat.le_of_lt nextBehind) blank.2
            (startsLine_lineStart bound) (.inr nextEnds)⟩
      · exact entry
    · exact entry
  · contradiction

/-! ## Both regions alike -/

def RegionPlan.edit? (p : RegionPlan) : Option Edit := p.edit.map Prod.snd

theorem RegionPlan.edit?_eq_some {p : RegionPlan} {e : Edit} :
    p.edit? = some e ↔ ∃ change, p.edit = some (change, e) := by
  unfold edit?
  rw [Option.map_eq_some_iff]
  constructor
  · rintro ⟨⟨change, f⟩, planned, rfl⟩
    exact ⟨change, planned⟩
  · rintro ⟨change, planned⟩
    exact ⟨_, planned, rfl⟩

def owner (o : ReconcileOptions) : Region → String
  | .argTypes => metaName
  | .args => o.defaultStory

def isWritten (o : ReconcileOptions) : Region → Bool
  | .argTypes => o.generateArgTypes
  | .args => true

def plan (x : Syntax) (props : List Synth.PropDescriptor) (o : ReconcileOptions) :
    Region → RegionPlan
  | .argTypes => planArgTypes x props o (objectOf? x metaName)
  | .args => planArgs x props o (objectOf? x o.defaultStory)

variable {o : ReconcileOptions}

theorem owner_ne (named : o.defaultStory ≠ metaName) {r s : Region} (different : r ≠ s) :
    owner o r ≠ owner o s := by
  cases r <;> cases s <;> first | contradiction | exact named | exact Ne.symm named

theorem plan_of_some (h : objectOf? x (owner o r) = some object) :
    plan x props o r =
      if isWritten o r then upsert x props r object else remove x r object := by
  cases r <;> rw [owner] at h <;> rw [plan, h] <;> rfl

theorem edit_plan_of_none (h : objectOf? x (owner o r) = none) :
    (plan x props o r).edit = none := by
  cases r <;> rw [owner] at h <;> rw [plan, h] <;> rfl

/-- The edit is made for a region, in the literal of the variable with the given name. -/
def EditOf (x : Syntax) (name : String) (r : Region) (e : Edit) : Prop :=
  ∃ object, objectOf? x name = some object ∧ InBraces x.source object e ∧
    Range x object r e.start e.stop

theorem EditOf.bounds {name : String} {e : Edit} (h : EditOf x name r e) :
    e.start ≤ e.stop ∧ e.stop ≤ x.source.length := by
  obtain ⟨object, -, braces, -⟩ := h
  have inside := (List.getElem?_eq_some_iff.1 braces.closing).1
  have right := braces.right
  exact ⟨braces.range, by omega⟩

theorem EditOf.apart {b : Nat} (lined : Lined x.source 0 x.root.children b) {m n : String}
    (different : m ≠ n) {r s : Region} {e f : Edit} (he : EditOf x m r e) (hf : EditOf x n s f) :
    e.stop < f.start ∨ f.stop < e.start := by
  obtain ⟨t, ht, eBraces, -⟩ := he
  obtain ⟨u, hu, fBraces, -⟩ := hf
  have := objects_apart lined different ht hu
  have := eBraces.left
  have := eBraces.right
  have := fBraces.left
  have := fBraces.right
  omega

theorem editOf_plan {b : Nat} (lined : Lined x.source 0 x.root.children b) {change : Change}
    {e : Edit} (h : (plan x props o r).edit = some (change, e)) : EditOf x (owner o r) r e := by
  cases found : objectOf? x (owner o r) with
  | none =>
      rw [edit_plan_of_none found] at h
      contradiction
  | some object =>
      have literal := isLiteral_of_objectOf? lined found
      rw [plan_of_some found] at h
      refine ⟨object, found, ?_⟩
      split at h
      · exact upsert_editsIn literal change e h
      · rename_i removed
        cases r with
        | argTypes => exact remove_editsIn literal change e h
        | args => exact absurd rfl removed

end PropStories.Reconciliation
