import PropStories.Proofs.Story.Repetition

/-!
# Members that define a key

A member of an object literal defines a key as a pair, a method or accessor, or a shorthand, and
the key is a name, a string, or a string in brackets. Reconciliation looks for a region among the
pairs whose key is a name or a string. Main statement: a literal that defines the key of a region
at most once does so afterwards exactly if its definition is such a pair, or the region is removed;
a value that is no object literal is kept and reported.
-/

namespace PropStories.Reconciliation

open Story Tsx
open Edit (place)

variable {x y : Syntax} {props : List Synth.PropDescriptor} {o : ReconcileOptions}
  {written : Region → Tree} {r : Region} {object : Tree} {e : Edit} {key : String}

/-! ## Definitions of a key -/

/-- Whether a key is a name or a string, or a string in brackets, that spells `key`. -/
def spells (x : Syntax) (key : String) (k : Tree) : Bool :=
  x.keyName k == key || k.kind == .computedName && k.firstPart?.any fun s =>
    (s.kind == .string || s.kind == .templateString) && x.keyName s == key

/-- Whether a child of an object literal is a member that defines `key`, in whatever form. -/
def defines (x : Syntax) (key : String) (m : Tree) : Bool :=
  match m.kind with
  | .pair => (m.child? .key).any (spells x key)
  | .method => (m.child? .name).any (spells x key)
  | .shorthandProperty => x.keyName m == key
  | _ => false

def definitions (x : Syntax) (key : String) (object : Tree) : List Tree :=
  object.children.filter (defines x key)

theorem defines_of_isEntry {m : Tree} (h : isEntry x key m = true) : defines x key m = true := by
  obtain ⟨kind, k, keyed, name⟩ := isEntry_eq_true.1 h
  simp [defines, kind, keyed, spells, name]

theorem kind_of_defines {m : Tree} (h : defines x key m = true) :
    m.kind = .pair ∨ m.kind = .method ∨ m.kind = .shorthandProperty := by
  unfold defines at h
  split at h
  · exact .inl ‹_›
  · exact .inr (.inl ‹_›)
  · exact .inr (.inr ‹_›)
  · contradiction

theorem mem_parts_of_defines {m : Tree} (hm : m ∈ object.children)
    (h : defines x key m = true) : m ∈ object.parts := by
  refine List.mem_filter.2 ⟨List.mem_filter.2 ⟨hm, ?_⟩, ?_⟩ <;>
    rcases kind_of_defines h with kind | kind | kind <;> rw [kind] <;> rfl

theorem start_lt_stop_of_spells {k : Tree} (fits : Fits x.source k)
    (h : spells x key k = true) (proper : key ≠ "") : k.start < k.stop := by
  simp only [spells, Bool.or_eq_true, Bool.and_eq_true, beq_iff_eq, Option.any_eq_true] at h
  obtain name | ⟨-, s, found, -, name⟩ := h
  · exact Renewal.start_lt_stop_of_keyName name proper
  · obtain ⟨sFits, left, right⟩ := fits_of_mem_children fits (Tree.mem_children_of_firstPart? found)
    have := Renewal.start_lt_stop_of_keyName name proper
    omega

theorem start_lt_stop_of_defines {m : Tree} (fits : Fits x.source m)
    (h : defines x key m = true) (proper : key ≠ "") : m.start < m.stop := by
  have below {l : Label} (found : (m.child? l).any (spells x key) = true) : m.start < m.stop := by
    obtain ⟨k, keyed, name⟩ := (Option.any_eq_true _ _).1 found
    obtain ⟨kFits, left, right⟩ := fits_of_child? fits keyed
    have := start_lt_stop_of_spells kFits name proper
    omega
  unfold defines at h
  split at h
  · exact below h
  · exact below h
  · exact Renewal.start_lt_stop_of_keyName (beq_iff_eq.1 h) proper
  · contradiction

/-- The only definition of a key is found if it is a pair with a name or a string. -/
theorem pairOf?_eq_of_single (single : (definitions x key object).length ≤ 1) {m : Tree}
    (hm : m ∈ definitions x key object) (entry : isEntry x key m = true) :
    pairOf? x object key = some m := by
  have part := mem_parts_of_defines (List.mem_filter.1 hm).1 (List.mem_filter.1 hm).2
  cases first : pairOf? x object key with
  | none => exact absurd entry (List.find?_eq_none.1 first m (List.mem_filter.1 part).1)
  | some pair =>
      have mem := Tree.mem_children_of_mem_namedChildren (List.mem_of_find?_eq_some first)
      have defined := defines_of_isEntry (List.find?_some first)
      rw [Lists.eq_of_length_le_one single hm (List.mem_filter.2 ⟨mem, defined⟩)]

/-! ## What is carried along -/

/-- Nodes between two places are found again as `f` says, with their texts. -/
structure Carries (x y : Syntax) (f : Tree → Tree) (p q : Nat) : Prop where
  kind : ∀ t, (f t).kind = t.kind
  label? : ∀ t, (f t).label? = t.label?
  children : ∀ t, t.kind ≠ .object → (f t).children = t.children.map f
  textOf : ∀ t, p ≤ t.start → t.start ≤ t.stop → t.stop ≤ q → y.textOf (f t) = x.textOf t

namespace Carries

variable {f : Tree → Tree} {p q : Nat} (h : Carries x y f p q)

include h

theorem keyName {k : Tree} (fits : Fits x.source k) (left : p ≤ k.start) (right : k.stop ≤ q) :
    y.keyName (f k) = x.keyName k := by
  rw [Syntax.keyName, Syntax.keyName, h.textOf k left fits.start_le_stop right]

theorem spells {k : Tree} (fits : Fits x.source k) (left : p ≤ k.start) (right : k.stop ≤ q) :
    spells y key (f k) = spells x key k := by
  unfold Reconciliation.spells
  rw [h.keyName fits left right, h.kind]
  by_cases computed : k.kind = .computedName
  · have proper : k.kind ≠ .object := by
      rw [computed]
      decide
    rw [Tree.firstPart?_map (h.children k proper) h.kind]
    cases found : k.firstPart? with
    | none => rfl
    | some s =>
        obtain ⟨sFits, sLeft, sRight⟩ :=
          fits_of_mem_children fits (Tree.mem_children_of_firstPart? found)
        simp only [Option.map_some, Option.any_some, h.kind,
          h.keyName sFits (Nat.le_trans left sLeft) (Nat.le_trans sRight right)]
  · rw [beq_eq_false_iff_ne.2 computed, Bool.false_and, Bool.false_and]

theorem defines {m : Tree} (fits : Fits x.source m) (left : p ≤ m.start) (right : m.stop ≤ q) :
    defines y key (f m) = defines x key m := by
  have below (proper : m.kind ≠ .object) (l : Label) :
      ((f m).child? l).any (Reconciliation.spells y key) =
        (m.child? l).any (Reconciliation.spells x key) := by
    rw [Tree.child?_map (h.children m proper) h.label?]
    cases found : m.child? l with
    | none => rfl
    | some k =>
        obtain ⟨kFits, kLeft, kRight⟩ := fits_of_child? fits found
        exact h.spells kFits (Nat.le_trans left kLeft) (Nat.le_trans kRight right)
  unfold Reconciliation.defines
  rw [h.kind]
  split
  · exact below (by simp [*]) .key
  · exact below (by simp [*]) .name
  · rw [h.keyName fits left right]
  · rfl

theorem filter_defines {cs : List Tree}
    (within : ∀ c ∈ cs, Fits x.source c ∧ p ≤ c.start ∧ c.stop ≤ q) :
    (cs.map f).filter (Reconciliation.defines y key) =
      (cs.filter (Reconciliation.defines x key)).map f := by
  rw [List.filter_map]
  refine congrArg _ (List.filter_congr fun c hc => ?_)
  obtain ⟨fits, left, right⟩ := within c hc
  exact h.defines fits left right

end Carries

/-! ## The literal of a region -/

namespace Renewal

variable (h : Renewal x props o written y)

include h

theorem carries_outside {p q : Nat} (outside : Outside x props o p q) :
    Carries x y (rebuilt x props o written) p q where
  kind := h.kind
  label? := h.label?
  children _ := h.children
  textOf _ left range right := h.textOf (outside.mono left right) range

theorem carries {c : Tree} (untouched : Edit.Untouched (edits x props o) c.start c.stop) :
    Carries x y (Tree.mapPlaces fun p => place (edits x props o) c.start + (p - c.start))
      c.start c.stop where
  kind := Tree.kind_mapPlaces _
  label? := Tree.label?_mapPlaces _
  children t _ := Tree.children_mapPlaces _ t
  textOf t left range right := by
    show Text.slice y.source (Tree.mapPlaces _ t).start (Tree.mapPlaces _ t).stop =
      Text.slice x.source t.start t.stop
    rw [Tree.start_mapPlaces, Tree.stop_mapPlaces]
    exact h.slice_carried untouched left range right

theorem definitions_of_untouched (found : Story.objectOf? x (owner o r) = some object)
    (untouched : (plan x props o r).edit = none) :
    definitions y key (rebuilt x props o written object) =
      (definitions x key object).map (rebuilt x props o written) := by
  have outside := h.outside_of_untouched found untouched
  have children : (rebuilt x props o written object).children =
      object.children.map (rebuilt x props o written) := by
    rw [rebuilt, Tree.substitute_of_none (h.new?_of_outside outside)]
    rfl
  rw [definitions, children]
  exact (h.carries_outside outside).filter_defines
    fun c hc => fits_of_mem_children (h.isLiteral found).fits hc

section

variable {change : Change} (edited : Edited x props o r object change e)

include edited

theorem filter_carried {cs : List Tree} (sub : ∀ c ∈ cs, c ∈ object.children)
    (apart : ∀ c ∈ cs, c.stop ≤ e.start ∨ e.stop ≤ c.start) :
    (cs.map (carried (edits x props o))).filter (defines y key) =
      (cs.filter (defines x key)).map (carried (edits x props o)) := by
  rw [List.filter_map]
  refine congrArg _ (List.filter_congr fun c hc => ?_)
  obtain ⟨fits, left, right⟩ :=
    fits_of_mem_children (h.isLiteral edited.found).fits (sub c hc)
  exact (h.carries (h.untouched edited left right (apart c hc))).defines fits (Nat.le_refl _)
    (Nat.le_refl _)

theorem definitions_reopened (inner : List Tree) :
    definitions y key (reopened (edits x props o) e object inner) =
      ((definitions x key object).filter (·.stop ≤ e.start)).map (carried (edits x props o)) ++
        inner.filter (defines y key) ++
        ((definitions x key object).filter (e.stop ≤ ·.start)).map
          (carried (edits x props o)) := by
  have kept (p : Tree → Bool) (apart : ∀ c, p c = true → c.stop ≤ e.start ∨ e.stop ≤ c.start) :
      ((object.children.filter p).map (carried (edits x props o))).filter (defines y key) =
        ((definitions x key object).filter p).map (carried (edits x props o)) := by
    rw [h.filter_carried edited (fun c hc => (List.mem_filter.1 hc).1)
      fun c hc => apart c (List.mem_filter.1 hc).2, definitions, List.filter_filter,
      List.filter_filter]
    simp only [Bool.and_comm]
  rw [definitions, reopened, Tree.children, List.filter_append, List.filter_append,
    kept _ fun c hc => .inl (by simpa using hc), kept _ fun c hc => .inr (by simpa using hc)]

theorem defines_fits {c : Tree} (hc : c ∈ definitions x r.key object) :
    c ∈ object.parts ∧ c.start < c.stop := by
  obtain ⟨mem, defined⟩ := List.mem_filter.1 hc
  refine ⟨mem_parts_of_defines mem defined, start_lt_stop_of_defines
    (fits_of_mem_children (h.isLiteral edited.found).fits mem).1 defined (by cases r <;> decide)⟩

end

theorem length_definitions_replaced {pair value : Tree}
    (edited : Edited x props o r object .replaced e) (first : pairOf? x object r.key = some pair)
    (named : pair.child? .value = some value) (literal : value.kind = .object)
    (start : e.start = value.start) (stop : e.stop = value.stop) :
    (definitions y r.key (written r)).length = (definitions x r.key object).length := by
  have isLiteral := h.isLiteral edited.found
  have mem := Tree.mem_children_of_mem_namedChildren (List.mem_of_find?_eq_some first)
  obtain ⟨pairFits, -, -⟩ := fits_of_mem_children isLiteral.fits mem
  obtain ⟨valueFits, valueLeft, valueRight⟩ := fits_of_child? pairFits named
  obtain ⟨-, -, -, -, -, -, -, proper, -, -⟩ := (IsLiteral.mk valueFits literal).braces
  obtain ⟨front, behind, split⟩ := List.append_of_mem mem
  have order := isLiteral.fits.lined.pairwise
  rw [split, List.pairwise_append, List.pairwise_cons] at order
  have put := h.literals r object .replaced e edited.found edited.planned
  generalize written r = t at put
  cases put with
  | replaced first' =>
      rename_i pair' inner
      rw [first] at first'
      obtain rfl := Option.some.inj first'
      obtain ⟨entry, -⟩ := h.isEntry_reopened edited
        (.node .object (some .value) (textPlace (edits x props o) object e)
          (textPlace (edits x props o) object e + e.text.length) inner)
        first named literal start stop rfl
      have old := defines_of_isEntry (List.find?_some first)
      rw [definitions, definitions, children_reopened (edits x props o) _ isLiteral.fits split
        (by omega) (by omega) (by omega), split]
      simp only [List.filter_append, List.filter_cons, List.filter_nil, old,
        defines_of_isEntry entry, if_true, List.length_append, List.length_cons, List.length_nil]
      rw [h.filter_carried edited (fun c hc => by simp [split, hc]) fun c hc =>
          .inl (by have := order.2.2 c hc pair List.mem_cons_self; omega),
        h.filter_carried edited (fun c hc => by simp [split, hc]) fun c hc =>
          .inr (by have := order.2.1.1 c hc; omega), List.length_map, List.length_map]
      omega

theorem length_definitions_inserted {front indent behind : List Char}
    (edited : Edited x props o r object .inserted e)
    (inserted : (upsert x props r object).edit = some (.inserted, e))
    (surrounds : Surrounds front indent behind)
    (text : e.text = insertion r props front indent behind) :
    (definitions y r.key (written r)).length = (definitions x r.key object).length + 1 := by
  have range := (h.inBraces edited).1.range
  have before : ∀ c ∈ definitions x r.key object, c.stop ≤ e.start ∧ c.start < e.stop := by
    intro c hc
    obtain ⟨part, proper⟩ := h.defines_fits edited hc
    have := stop_le_of_inserted (h.isLiteral edited.found) inserted part
    omega
  have put := h.literals r object .inserted e edited.found edited.planned
  generalize written r = t at put
  cases put with
  | inserted commas =>
      rename_i commasFront inner commasBehind
      have none {ts : List Tree} (hts : ∀ t ∈ ts, t.kind = .token ",") :
          ts.filter (defines y r.key) = [] := by
        refine List.filter_eq_nil_iff.2 fun t ht defined => ?_
        have kind := kind_of_defines defined
        rw [hts t ht] at kind
        simp at kind
      have entry := defines_of_isEntry (h.isEntry_inserted edited surrounds text
        (textPlace (edits x props o) object e + e.text.length - trail e.text) inner)
      rw [h.definitions_reopened edited, List.filter_append, List.filter_cons, if_pos entry,
        none fun t ht => commas t (List.mem_append_left _ ht),
        none fun t ht => commas t (List.mem_append_right _ ht),
        List.filter_eq_self.2 fun c hc => decide_eq_true (before c hc).1,
        List.filter_eq_nil_iff.2 fun c hc => by
          have := (before c hc).2
          simpa using this]
      simp

theorem length_definitions_removed (edited : Edited x props o r object .removed e) :
    (definitions y r.key (written r)).length ≤ (definitions x r.key object).length := by
  have range := (h.inBraces edited).1.range
  have put := h.literals r object .removed e edited.found edited.planned
  generalize written r = t at put
  cases put with
  | removed =>
      rw [h.definitions_reopened edited, List.filter_nil, List.append_nil, List.length_append,
        List.length_map, List.length_map, ← List.countP_eq_length_filter,
        ← List.countP_eq_length_filter, List.length_eq_countP_add_countP (·.stop ≤ e.start)]
      refine Nat.add_le_add_left (List.countP_mono_left fun c hc behind => ?_) _
      have := (h.defines_fits edited hc).2
      simp only [decide_eq_true_eq] at behind ⊢
      omega

theorem length_definitions (found : Story.objectOf? x (owner o r) = some object)
    (single : (definitions x r.key object).length ≤ 1) :
    ∃ object', Story.objectOf? y (owner o r) = some object' ∧
      ((definitions y r.key object').length ≤ 1 ↔
        (isWritten o r = true → ∀ m ∈ definitions x r.key object,
          Reconciliation.isEntry x r.key m = true)) := by
  have planned := @plan_of_some x object r props o found
  have still (edit : (plan x props o r).edit = none) : ∃ object',
      Story.objectOf? y (owner o r) = some object' ∧
        (definitions y r.key object').length = (definitions x r.key object).length := by
    refine ⟨_, (h.objectOf?_untouched found edit).1, ?_⟩
    rw [h.definitions_of_untouched found edit, List.length_map]
  have same {pair : Tree} (first : pairOf? x object r.key = some pair) :
      ∀ m ∈ definitions x r.key object, Reconciliation.isEntry x r.key m = true := by
    intro m hm
    have entry := List.find?_some first
    have mem := Tree.mem_children_of_mem_namedChildren (List.mem_of_find?_eq_some first)
    rwa [Lists.eq_of_length_le_one single hm (List.mem_filter.2 ⟨mem, defines_of_isEntry entry⟩)]
  cases writes : isWritten o r with
  | false =>
      rw [writes, if_neg Bool.false_ne_true] at planned
      have few : ∃ object', Story.objectOf? y (owner o r) = some object' ∧
          (definitions y r.key object').length ≤ 1 := by
        cases first : pairOf? x object r.key with
        | none =>
            obtain ⟨object', found', length⟩ := still (by rw [planned, remove, first]; rfl)
            exact ⟨object', found', by omega⟩
        | some pair =>
            have edited : Edited x props o r object .removed _ :=
              ⟨found, by rw [planned, remove, first]⟩
            exact ⟨_, h.objectOf?_written edited,
              Nat.le_trans (h.length_definitions_removed edited) single⟩
      obtain ⟨object', found', few⟩ := few
      exact ⟨object', found', by simp [few]⟩
  | true =>
      rw [writes, if_pos rfl] at planned
      cases course x object r with
      | replaces first named literal line edit =>
          have edited : Edited x props o r object .replaced _ :=
            ⟨found, by rw [planned]; exact edit props⟩
          have length := h.length_definitions_replaced edited first named literal rfl rfl
          exact ⟨_, h.objectOf?_written edited, fun _ _ => same first, fun _ => by omega⟩
      | leaves first other =>
          obtain ⟨object', found', length⟩ :=
            still (by rw [planned]; exact edit_upsert_of_other first other)
          exact ⟨object', found', fun _ _ => same first, fun _ => by omega⟩
      | inserts fresh edit =>
          obtain ⟨start, stop, front, indent, behind, surrounds, edit⟩ := edit
          have edited : Edited x props o r object .inserted _ :=
            ⟨found, by rw [planned]; exact edit props⟩
          have length := h.length_definitions_inserted edited (edit props) surrounds rfl
          refine ⟨_, h.objectOf?_written edited, fun few _ m hm => ?_, fun entries => ?_⟩
          · have := List.length_pos_of_mem hm
            omega
          · have none : definitions x r.key object = [] := by
              refine List.eq_nil_iff_forall_not_mem.2 fun m hm => ?_
              have named := (List.mem_filter.1 (mem_parts_of_defines (List.mem_filter.1 hm).1
                (List.mem_filter.1 hm).2)).1
              exact List.find?_eq_none.1 fresh m named (entries rfl m hm)
            rw [length, none]
            exact Nat.le_refl _

/-- A value that is no object literal is reported, and its member stays as it is. -/
theorem kept (found : Story.objectOf? x (owner o r) = some object) (writes : isWritten o r = true)
    {pair value : Tree} (first : pairOf? x object r.key = some pair)
    (named : pair.child? .value = some value) (other : value.kind ≠ .object) :
    .notAnObject r.key ∈ (plan x props o r).diagnostics ∧
      ∃ object', Story.objectOf? y (owner o r) = some object' ∧
        ∃ m' ∈ definitions y r.key object', y.textOf m' = x.textOf pair := by
  have planned := @plan_of_some x object r props o found
  rw [if_pos writes] at planned
  have mem := Tree.mem_children_of_mem_namedChildren (List.mem_of_find?_eq_some first)
  have untouched : (plan x props o r).edit = none := by
    rw [planned]
    exact edit_upsert_of_other first fun v hv => by
      rw [named] at hv
      rwa [← Option.some.inj hv]
  refine ⟨?_, _, (h.objectOf?_untouched found untouched).1, rebuilt x props o written pair, ?_, ?_⟩
  · rw [planned, upsert, first]
    simp [replaceEntry, named, other]
  · rw [h.definitions_of_untouched found untouched]
    exact List.mem_map_of_mem
      (List.mem_filter.2 ⟨mem, defines_of_isEntry (List.find?_some first)⟩)
  · obtain ⟨fits, left, right⟩ := fits_of_mem_children (h.isLiteral found).fits mem
    exact h.textOf ((h.outside_of_untouched found untouched).mono left right) fits.start_le_stop

end Renewal

/-! ## The statement -/

theorem mem_diagnostics {content : String} {report : ReconcileReport}
    (h : ofSyntax x props o = .updated content report) {d : Diagnostic}
    (hd : d ∈ (plan x props o r).diagnostics) : d ∈ report.diagnostics := by
  obtain ⟨-, rfl⟩ := ofSyntax_eq_updated h
  refine List.mem_append_left _ ?_
  cases r with
  | argTypes => exact List.mem_append_left _ hd
  | args => exact List.mem_append_right _ hd

theorem definitions_stay_single {story content : String} {report : ReconcileReport}
    (named : o.defaultStory ≠ metaName) (updated : reconcile story props o = .updated content report)
    (reparsed : Reparsed (parse story.toList) props o (parse content.toList).root)
    (found : objectOf? (parse story.toList) (owner o r) = some object)
    (single : (definitions (parse story.toList) r.key object).length ≤ 1) :
    ∃ object', objectOf? (parse content.toList) (owner o r) = some object' ∧
      ((definitions (parse content.toList) r.key object').length ≤ 1 ↔
        (isWritten o r = true → ∀ m ∈ definitions (parse story.toList) r.key object,
          isEntry (parse story.toList) r.key m = true)) ∧
      (isWritten o r = true → ∀ m ∈ definitions (parse story.toList) r.key object,
        isEntry (parse story.toList) r.key m = true → ∀ value ∈ m.child? .value,
          value.kind ≠ .object → .notAnObject r.key ∈ report.diagnostics ∧
            ∃ m' ∈ definitions (parse content.toList) r.key object',
              (parse content.toList).textOf m' = (parse story.toList).textOf m) := by
  obtain ⟨written, h⟩ := exists_renewal named updated reparsed
  obtain ⟨-, updated⟩ := reconcile_eq_updated updated
  obtain ⟨object', found', length⟩ := h.length_definitions found single
  refine ⟨object', found', length, fun writes m hm entry value valued other => ?_⟩
  have first := pairOf?_eq_of_single single hm entry
  obtain ⟨reported, object'', found'', stays⟩ := h.kept found writes first valued other
  rw [found'] at found''
  obtain rfl := Option.some.inj found''
  exact ⟨mem_diagnostics updated reported, stays⟩

theorem definitions_stay_single_of_shared :
    let x := parse "const meta = \x7b a: 1 \x7d;\nconst D = \x7b args: shared \x7d;\n".toList
    let y := parse
      ("const meta = \x7b a: 1,\nargTypes: \x7b\x7d, \x7d;\n" ++
        "const D = \x7b args: shared \x7d;\n").toList
    ∃ object object', objectOf? x "D" = some object ∧ objectOf? y "D" = some object' ∧
      (definitions y "args" object').length ≤ 1 ∧
        ∃ m ∈ definitions x "args" object, ∃ m' ∈ definitions y "args" object',
          y.textOf m' = x.textOf m := by
  intro x y
  have updated : reconcile
      "const meta = \x7b a: 1 \x7d;\nconst D = \x7b args: shared \x7d;\n" [] ⟨"D", true, false⟩ =
      .updated ("const meta = \x7b a: 1,\nargTypes: \x7b\x7d, \x7d;\n" ++
        "const D = \x7b args: shared \x7d;\n") ⟨.inserted, false, [.notAnObject "args"]⟩ := by
    decide +kernel
  have located : (objectOf? x "D").isSome ∧ ∀ object ∈ objectOf? x "D",
      (definitions x "args" object).length = 1 ∧ ∀ m ∈ definitions x "args" object,
        isEntry x "args" m = true ∧ (m.child? .value).isSome ∧
          ∀ value ∈ m.child? .value, value.kind ≠ .object := by
    decide +kernel
  obtain ⟨object, found⟩ := Option.isSome_iff_exists.1 located.1
  obtain ⟨single, shared⟩ := located.2 object found
  obtain ⟨m, only⟩ := List.length_eq_one_iff.1 single
  have hm : m ∈ definitions x "args" object := only ▸ List.mem_singleton_self m
  obtain ⟨entry, valued, other⟩ := shared m hm
  obtain ⟨value, valued⟩ := Option.isSome_iff_exists.1 valued
  obtain ⟨object', found', length, stays⟩ := @definitions_stay_single [] _ .args object _ _ _
    (by decide) updated ⟨by decide +kernel, _, areWritten_reread y, by decide +kernel⟩ found
    (Nat.le_of_eq single)
  exact ⟨object, object', found, found', length.2 fun _ m hm => (shared m hm).1, m, hm,
    (stays rfl m hm entry value valued (other value valued)).2⟩

end PropStories.Reconciliation
