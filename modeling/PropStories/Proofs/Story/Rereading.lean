import PropStories.Proofs.Lists
import PropStories.Proofs.Story.Entries

/-!
# Reading a reconciled region again

Once a region has been written, the story holds its entry with an object literal, on a line that is
indented as it was when the literal was rendered. What is written into it then takes the place of
what was written first.
-/

namespace PropStories.Reconciliation

open Story Tsx
open Edit (place placeFrom spliceFrom)
open Text (slice)

variable {x y : Syntax} {props : List Synth.PropDescriptor} {o : ReconcileOptions}
  {written : Region → Tree} {r : Region} {object : Tree} {e : Edit}

structure Holds (y : Syntax) (r : Region) (t : Tree) (indent : List Char) (start stop : Nat)
    (pair value : Tree) : Prop where
  first : pairOf? y t r.key = some pair
  named : pair.child? .value = some value
  literal : value.kind = .object
  start : value.start = start
  stop : value.stop = stop
  line : lineIndent y.source pair.start = String.ofList indent

theorem Holds.edit {t pair value : Tree} {indent : List Char} {start stop : Nat}
    (h : Holds y r t indent start stop pair value) :
    (upsert y props r t).edit = some (.replaced, ⟨start, stop, rendered r props indent⟩) := by
  unfold upsert
  rw [h.first]
  simp only [replaceEntry, h.named, h.literal, h.line, h.start, h.stop, beq_self_eq_true, if_pos,
    rendered]

/-- Between the two literals, if both are there, a line ends. -/
def LineBreakBetween (x : Syntax) (o : ReconcileOptions) : Prop :=
  ∀ t ∈ objectOf? x metaName, ∀ u ∈ objectOf? x o.defaultStory,
    '\n' ∈ slice x.source t.stop u.start ∨ '\n' ∈ slice x.source u.stop t.start

instance (x : Syntax) (o : ReconcileOptions) : Decidable (LineBreakBetween x o) :=
  inferInstanceAs (Decidable (∀ t ∈ objectOf? x metaName, ∀ u ∈ objectOf? x o.defaultStory,
    '\n' ∈ slice x.source t.stop u.start ∨ '\n' ∈ slice x.source u.stop t.start))

theorem LineBreakBetween.exists (between : LineBreakBetween x o) {s : Region} (different : r ≠ s)
    {t u : Tree} (ht : objectOf? x (owner o r) = some t) (hu : objectOf? x (owner o s) = some u) :
    ∃ i, x.source[i]? = some '\n' ∧ (t.stop ≤ i ∧ i < u.start ∨ u.stop ≤ i ∧ i < t.start) := by
  have separated :
      '\n' ∈ slice x.source t.stop u.start ∨ '\n' ∈ slice x.source u.stop t.start := by
    cases r with
    | argTypes =>
        cases s with
        | argTypes => contradiction
        | args => exact between t ht u hu
    | args =>
        cases s with
        | argTypes => exact (between u hu t ht).symm
        | args => contradiction
  obtain mem | mem := separated
  · obtain ⟨i, newline, order⟩ := Text.exists_of_mem_slice mem
    exact ⟨i, newline, .inl order⟩
  · obtain ⟨i, newline, order⟩ := Text.exists_of_mem_slice mem
    exact ⟨i, newline, .inr order⟩

theorem region_eq {s t : Region} (hs : r ≠ s) (ht : r ≠ t) : s = t := by
  cases r <;> cases s <;> cases t <;> first | rfl | contradiction

namespace Renewal

variable (h : Renewal x props o written y)

include h

/-! ## A region that was inserted -/

omit h in
theorem keyName_key {k : Tree} (text : y.textOf k = r.key.toList) : y.keyName k = r.key := by
  rw [Syntax.keyName, text]
  cases r <;> decide

theorem isEntry_inserted {change : Change} (edited : Edited x props o r object change e)
    {front indent behind : List Char} (surrounds : Surrounds front indent behind)
    (text : e.text = insertion r props front indent behind) (stop : Nat) (inner : List Tree) :
    Reconciliation.isEntry y r.key (entryNode r (textPlace (edits x props o) object e + lead e.text)
      stop inner) = true := by
  have length := length_insertion r props front indent behind
  have aheadLength := length_ahead r front indent
  have key := h.slice_text edited (i := front.length + 1 + indent.length)
    (j := front.length + 1 + indent.length + r.key.length) (by rw [text]; omega)
  rw [text, slice_key, ← Nat.add_assoc _ _ r.key.length] at key
  rw [text, surrounds.lead]
  exact isEntry_eq_true.2 ⟨rfl, _, rfl, keyName_key key⟩

theorem holds_inserted (edited : Edited x props o r object .inserted e)
    (fresh : pairOf? x object r.key = none) {front indent behind : List Char}
    (surrounds : Surrounds front indent behind)
    (text : e.text = insertion r props front indent behind) :
    ∃ pair value, Holds y r (written r) indent
      (textPlace (edits x props o) object e + (ahead r front indent).length)
      (textPlace (edits x props o) object e + (ahead r front indent).length +
        (rendered r props indent).length) pair value := by
  have put := h.literals r object .inserted e edited.found edited.planned
  generalize written r = t at put
  cases put with
  | inserted commas =>
      rename_i commasFront inner commasBehind
      have entry := h.isEntry_inserted edited surrounds text
      rw [text, surrounds.lead] at entry
      rw [text, surrounds.lead, surrounds.trail]
      have length := length_insertion r props front indent behind
      have aheadLength := length_ahead r front indent
      refine ⟨_, _, h.pairOf?_reopened edited _ _ ?_ ?_ (entry _ _), rfl, rfl, ?_, ?_, ?_⟩
      · intro c hc _
        exact Bool.eq_false_iff.2 (List.find?_eq_none.1 fresh c hc)
      · intro t ht
        rw [commas t (List.mem_append_left _ ht)]
        rfl
      · show _ + r.key.length + 2 = _
        omega
      · show _ - behind.length = _
        omega
      · have line := h.slice_text edited (i := front.length)
          (j := front.length + (1 + indent.length + 1)) (by rw [text]; omega)
        rw [text, slice_line] at line
        have begins := lineIndent_of_slice line surrounds.indent (by decide)
        rwa [Nat.add_assoc _ 1, Nat.add_assoc, ← Nat.add_assoc front.length] at begins

/-! ## A region that was replaced -/

theorem exists_other {change : Change} (edited : Edited x props o r object change e) {f : Edit}
    (hf : f ∈ edits x props o) (before : f.stop < object.start) :
    ∃ s u, r ≠ s ∧ Story.objectOf? x (owner o s) = some u ∧ InBraces x.source u f := by
  obtain ⟨b, lined⟩ := h.lined
  obtain ⟨s, other, planned⟩ := mem_edits.1 hf
  obtain ⟨u, found, braces, -⟩ := editOf_plan lined planned
  refine ⟨s, u, ?_, found, braces⟩
  rintro rfl
  rw [edited.planned] at planned
  obtain ⟨-, rfl⟩ := Prod.mk.inj (Option.some.inj planned)
  have := (h.inBraces edited).1.left
  have := (h.inBraces edited).1.range
  omega

/-- In front of a literal a line begins at which all edits of the other literal have ended. -/
theorem exists_lineStart (between : LineBreakBetween x o) {change : Change}
    (edited : Edited x props o r object change e) :
    ∃ a, a ≤ object.start ∧ Ended (x.source.take a) ∧
      Ended (y.source.take (place (edits x props o) a)) ∧
      ∀ f ∈ edits x props o, f = e ∨ f.stop ≤ a ∨ object.stop < f.start := by
  have left := (h.inBraces edited).1.left
  have range := (h.inBraces edited).1.range
  have right := (h.inBraces edited).1.right
  by_cases other : ∃ f ∈ edits x props o, f.stop < object.start
  · obtain ⟨f, hf, before⟩ := other
    obtain ⟨s, u, different, found, braces⟩ := h.exists_other edited hf before
    obtain ⟨i, newline, order⟩ := between.exists different edited.found found
    have fLeft := braces.left
    have fRight := braces.right
    have fRange := braces.range
    have between : u.stop ≤ i ∧ i < object.start := by omega
    have only : ∀ g ∈ edits x props o, g = e ∨ g.stop ≤ i ∨ object.stop < g.start := by
      intro g hg
      obtain rfl | gBefore | behind := h.others_apart edited hg
      · exact .inl rfl
      · obtain ⟨t, v, different', found', braces'⟩ := h.exists_other edited hg gBefore
        obtain rfl := region_eq different different'
        rw [found] at found'
        obtain rfl := Option.some.inj found'
        have := braces'.right
        exact .inr (.inl (by omega))
      · exact .inr (.inr behind)
    have gap : ∀ g ∈ edits x props o, i + 1 < g.stop ∨ g.stop ≤ i := by
      intro g hg
      have gRange := (h.inOrder.mem hg).2.1
      obtain rfl | before | behind := only g hg
      · exact .inl (by omega)
      · exact .inr before
      · exact .inl (by omega)
    have untouched : Edit.Untouched (edits x props o) i (i + 1) := by
      intro g hg
      obtain rfl | before | behind := only g hg
      · exact .inl (by omega)
      · exact .inr before
      · exact .inl (by omega)
    have next : place (edits x props o) (i + 1) = place (edits x props o) i + 1 := by
      have := Edit.placeFrom_add h.inOrder (Nat.zero_le _) (Nat.le_add_right i 1) gap
      rwa [Nat.add_sub_cancel_left] at this
    have same : slice y.source (place (edits x props o) i) (place (edits x props o) i + 1) =
        ['\n'] := by
      have moved := Edit.slice_spliceFrom h.inOrder (Nat.zero_le _) untouched (Nat.le_refl _)
        (Nat.le_add_right i 1) (Nat.le_refl _)
      rw [← h.source, Nat.sub_self, Nat.add_zero, Nat.add_sub_cancel_left,
        Text.slice_of_getElem? newline] at moved
      exact moved
    refine ⟨i + 1, between.2, ended_take newline, ?_, fun g hg => ?_⟩
    · rw [next]
      exact ended_take (getElem?_of_slice same)
    · obtain same | before | behind := only g hg
      · exact .inl same
      · exact .inr (.inl (Nat.le_succ_of_le before))
      · exact .inr (.inr behind)
  · have only : ∀ f ∈ edits x props o, f = e ∨ object.stop < f.start := by
      intro f hf
      obtain same | before | behind := h.others_apart edited hf
      · exact .inl same
      · exact absurd ⟨f, hf, before⟩ other
      · exact .inr behind
    have zero : place (edits x props o) 0 = 0 := by
      refine Edit.place_zero fun f hf => ?_
      have := (h.inOrder.mem hf).2.1
      obtain rfl | behind := only f hf
      · omega
      · omega
    refine ⟨0, Nat.zero_le _, .inl List.take_zero, ?_, fun f hf => ?_⟩
    · rw [zero]
      exact .inl List.take_zero
    · obtain same | behind := only f hf
      · exact .inl same
      · exact .inr (.inr behind)

/-- The indentation in front of an untouched stretch is read as before, if behind the stretch
stands the same brace. -/
theorem lineIndent_place {a p t : Nat} (hap : a ≤ p) (hpt : p ≤ t)
    (untouched : Edit.Untouched (edits x props o) a t)
    (ended : Ended (x.source.take a))
    (ended' : Ended (y.source.take (place (edits x props o) a)))
    (brace : x.source[t]? = some '\x7b')
    (brace' : y.source[place (edits x props o) a + (t - a)]? = some '\x7b') :
    lineIndent y.source (place (edits x props o) a + (p - a)) = lineIndent x.source p := by
  have stretch := Edit.slice_spliceFrom h.inOrder (Nat.zero_le a) untouched (Nat.le_refl a)
    (Nat.le_trans hap hpt) (Nat.le_refl t)
  rw [← h.source, Nat.sub_self, Nat.add_zero] at stretch
  have same : slice y.source (place (edits x props o) a) (place (edits x props o) a + (t - a) + 1) =
      slice x.source a (t + 1) := by
    rw [← Text.slice_append y.source (Nat.le_add_right _ (t - a)) (Nat.le_add_right _ 1),
      ← Text.slice_append x.source (Nat.le_trans hap hpt) (Nat.le_add_right t 1),
      Text.slice_of_getElem? brace, Text.slice_of_getElem? brace']
    exact congrArg (· ++ _) stretch
  have stops : ∃ c ∈ (slice x.source a (t + 1)).drop (p - a), isIndent c = false := by
    refine ⟨'\x7b', List.mem_of_getElem? (i := t - p) ?_, by decide⟩
    rw [List.getElem?_drop, Text.getElem?_slice (by omega), ← brace]
    congr 1
    omega
  have bound := (List.getElem?_eq_some_iff.1 brace).1
  have bound' := (List.getElem?_eq_some_iff.1 brace').1
  have length : (x.source.take a).length = a := List.length_take_of_le (by omega)
  have length' : (y.source.take (place (edits x props o) a)).length = place (edits x props o) a :=
    List.length_take_of_le (by omega)
  have here := lineIndent_append ended stops (x.source.drop (t + 1))
  have there := lineIndent_append ended' (same ▸ stops)
    (y.source.drop (place (edits x props o) a + (t - a) + 1))
  rw [← slice_split (by omega), length, Nat.add_sub_cancel' hap] at here
  rw [← slice_split (by omega), length', same] at there
  rw [here, there]

theorem holds_replaced (between : LineBreakBetween x o)
    (edited : Edited x props o r object .replaced e) {pair value : Tree} {indent : List Char}
    (first : pairOf? x object r.key = some pair) (named : pair.child? .value = some value)
    (literal : value.kind = .object) (line : lineIndent x.source pair.start = String.ofList indent)
    (start : e.start = value.start) (stop : e.stop = value.stop)
    (text : e.text = rendered r props indent) :
    ∃ pair' value', Holds y r (written r) indent (textPlace (edits x props o) object e)
      (textPlace (edits x props o) object e + (rendered r props indent).length) pair' value' := by
  have isLiteral := h.isLiteral edited.found
  obtain ⟨pairFits, left, right⟩ := isLiteral.inside_of_named (List.mem_of_find?_eq_some first)
  obtain ⟨valueFits, valueLeft, valueRight⟩ := fits_of_child? pairFits named
  obtain ⟨-, -, -, -, -, -, -, proper, brace, -⟩ := (IsLiteral.mk valueFits literal).braces
  have front : ∀ c ∈ object.namedChildren, c.stop ≤ e.start →
      Reconciliation.isEntry x r.key c = false := by
    intro c hc before
    obtain ⟨-, as, bs, split, none⟩ := List.find?_eq_some_iff_append.1 first
    have order := (lined_sublist isLiteral.fits.lined
      (List.filter_sublist (p := (·.kind.isNamed)))).pairwise
    have cFits := (isLiteral.inside_of_named hc).1.start_le_stop
    change object.namedChildren.Pairwise _ at order
    rw [split] at hc order
    rcases List.mem_append.1 hc with hc | hc
    · exact Bool.not_eq_eq_eq_not.1 (none c hc)
    · rcases List.mem_cons.1 hc with rfl | hc
      · omega
      · have := (List.pairwise_cons.1 (List.pairwise_append.1 order).2.1).1 c hc
        omega
  obtain ⟨a, ha, ended, ended', only⟩ := h.exists_lineStart between edited
  have apart {q : Nat} (hq : q ≤ value.start) :
      ∀ f ∈ edits x props o, q < f.stop ∨ f.stop ≤ a := by
    intro f hf
    have := (h.inOrder.mem hf).2.1
    obtain rfl | before | behind := only f hf
    · exact .inl (by omega)
    · exact .inr before
    · exact .inl (by omega)
  have untouched : Edit.Untouched (edits x props o) a value.start := by
    intro f hf
    obtain rfl | before | behind := only f hf
    · exact .inl (by omega)
    · exact .inr before
    · exact .inl (by omega)
  have objectPlace : place (edits x props o) object.start =
      place (edits x props o) a + (object.start - a) :=
    Edit.placeFrom_add h.inOrder (Nat.zero_le _) ha (apart (by omega))
  have pairPlace : place (edits x props o) pair.start =
      place (edits x props o) a + (pair.start - a) :=
    Edit.placeFrom_add h.inOrder (Nat.zero_le _) (by omega) (apart valueLeft)
  have valuePlace : place (edits x props o) a + (value.start - a) =
      textPlace (edits x props o) object e := by
    rw [textPlace, objectPlace]
    omega
  have brace' : y.source[place (edits x props o) a + (value.start - a)]? = some '\x7b' := by
    obtain ⟨inner, eq⟩ := rendered_eq r props indent
    have opening := h.slice_text edited (i := 0) (j := 1) (by rw [text, eq]; exact Nat.succ_pos _)
    rw [text, eq, Nat.add_zero] at opening
    rw [valuePlace]
    exact getElem?_of_slice opening
  have put := h.literals r object .replaced e edited.found edited.planned
  generalize written r = t at put
  cases put with
  | replaced first' =>
      rename_i pair' inner
      rw [first] at first'
      obtain rfl := Option.some.inj first'
      let new : Tree := .node .object (some .value) (textPlace (edits x props o) object e)
        (textPlace (edits x props o) object e + e.text.length) inner
      obtain ⟨entry, child⟩ := h.isEntry_reopened edited new first named literal start stop rfl
      refine ⟨_, _, h.pairOf?_reopened edited [] [] front nofun entry, child, rfl, rfl, ?_, ?_⟩
      · rw [← text]
        rfl
      · rw [← line, ← h.lineIndent_place (p := pair.start) (by omega) valueLeft untouched ended
          ended' brace brace', ← pairPlace]
        rfl

/-! ## A region that was removed -/

omit h in
theorem start_lt_stop_of_keyName {key : String} {k : Tree} (name : x.keyName k = key)
    (proper : key ≠ "") : k.start < k.stop := by
  rw [← Nat.not_le]
  intro empty
  have text : x.textOf k = [] := Text.slice_of_le x.source empty
  rw [Syntax.keyName, text] at name
  exact proper name.symm

omit h in
theorem start_lt_stop_of_isEntry {key : String} {pair : Tree} (fits : Fits x.source pair)
    (entry : Reconciliation.isEntry x key pair = true) (proper : key ≠ "") :
    pair.start < pair.stop := by
  obtain ⟨-, k, keyed, name⟩ := isEntry_eq_true.1 entry
  obtain ⟨kFits, left, right⟩ := fits_of_child? fits keyed
  have := start_lt_stop_of_keyName name proper
  omega

theorem pairOf?_removed (edited : Edited x props o r object .removed e) {pair : Tree}
    (first : pairOf? x object r.key = some pair)
    (single : (object.namedChildren.filter (Reconciliation.isEntry x r.key)).length ≤ 1)
    (covers : e.start ≤ pair.start ∧ pair.stop ≤ e.stop) :
    pairOf? y (written r) r.key = none := by
  have isLiteral := h.isLiteral edited.found
  have mem := List.mem_of_find?_eq_some first
  have entry : Reconciliation.isEntry x r.key pair = true := List.find?_some first
  have proper := start_lt_stop_of_isEntry (isLiteral.inside_of_named mem).1 entry
    (by cases r <;> decide)
  have put := h.literals r object .removed e edited.found edited.planned
  generalize written r = t at put
  cases put with
  | removed =>
      refine h.pairOf?_of_removed edited fun c hc apart => ?_
      rw [Bool.eq_false_iff]
      intro other
      have same : c = pair := Lists.eq_of_length_le_one single (List.mem_filter.2 ⟨hc, other⟩)
        (List.mem_filter.2 ⟨mem, entry⟩)
      rw [same] at apart
      have range := (h.inOrder.mem (mem_edits.2 ⟨r, .removed, edited.planned⟩)).2.1
      omega

end Renewal

end PropStories.Reconciliation
