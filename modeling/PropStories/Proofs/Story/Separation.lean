import PropStories.Proofs.Story.Repetition
import PropStories.Proofs.Tsx.Members

/-!
# Commas around a removed entry

When the table of props is removed, everything else in its literal stays, in its order. Main
statement: the members are then separated by commas as before, exactly if nothing but white space
stands between the removed entry and the comma behind it.
-/

namespace PropStories.Reconciliation

open Story Tsx
open Edit (place)

variable {x y : Syntax} {props : List Synth.PropDescriptor} {o : ReconcileOptions}
  {written : Region → Tree} {object pair : Tree} {front behind : List Tree}

/-! ## Members and commas -/

def row (ts : List Tree) : List Kind :=
  (ts.map Tree.kind).filter fun k => k.isMember || k == .token ","

def separated : List Kind → Bool
  | [] => true
  | [k] => k.isMember
  | k :: c :: ks => k.isMember && c == .token "," && separated ks

theorem row_append (ts us : List Tree) : row (ts ++ us) = row ts ++ row us := by
  rw [row, List.map_append, List.filter_append]
  rfl

theorem row_cons_member {t : Tree} (member : t.kind.isMember = true) (ts : List Tree) :
    row (t :: ts) = t.kind :: row ts := by
  rw [row, List.map_cons, List.filter_cons, member]
  rfl

theorem row_cons_comma {t : Tree} (comma : t.kind = .token ",") (ts : List Tree) :
    row (t :: ts) = .token "," :: row ts := by
  rw [row, List.map_cons, List.filter_cons, comma]
  rfl

theorem row_map {f : Tree → Tree} (kind : ∀ t, (f t).kind = t.kind) (ts : List Tree) :
    row (ts.map f) = row ts := by
  rw [row, row, List.map_map]
  congr 2
  exact funext kind

theorem mem_row_comma {ts : List Tree} (h : .token "," ∈ row ts) :
    ∃ t ∈ ts, t.kind = .token "," :=
  List.mem_map.1 (List.mem_filter.1 h).1

theorem separated_cons {m : Kind} {ks : List Kind} (h : separated (m :: ks) = true) :
    ks = [] ∨ ∃ ls, ks = .token "," :: ls ∧ separated ls = true := by
  cases ks with
  | nil => exact .inl rfl
  | cons c ls =>
      rw [separated, Bool.and_eq_true, Bool.and_eq_true, beq_iff_eq] at h
      exact .inr ⟨ls, by rw [h.1.2], h.2⟩

theorem separated_append {m : Kind} (member : m.isMember = true) : (ks : List Kind) →
    {ls : List Kind} → separated (ks ++ m :: ls) = true →
      ∀ us, separated (ks ++ us) = separated us
  | [], _, _, _ => rfl
  | [k], ls, h, us => by
      obtain none | ⟨us, eq, -⟩ := separated_cons h
      · contradiction
      · rw [(List.cons.inj eq).1] at member
        contradiction
  | k :: c :: ks, ls, h, us => by
      simp only [List.cons_append, separated, Bool.and_eq_true] at h ⊢
      rw [h.1.1, h.1.2, separated_append member ks h.2 us]
      rfl

theorem exists_comma {c d : Tree} {us : List Tree} (hc : c ∈ front)
    (first : c.kind.isMember = true) (second : d.kind.isMember = true)
    (h : separated (row (front ++ d :: us)) = true)
    (lined : front.Pairwise fun t u => t.stop ≤ u.start) :
    ∃ comma ∈ front, comma.kind = .token "," ∧ c.stop ≤ comma.start := by
  obtain ⟨before, after, rfl⟩ := List.append_of_mem hc
  rw [List.append_assoc, row_append, List.cons_append, row_cons_member first, row_append,
    row_cons_member second] at h
  have tail := separated_append first _ h (c.kind :: (row after ++ d.kind :: row us))
  rw [h] at tail
  have inside : .token "," ∈ row after := by
    obtain none | ⟨ls, eq, -⟩ := separated_cons tail.symm
    · simp at none
    · cases hr : row after with
      | nil =>
          rw [hr, List.nil_append] at eq
          rw [(List.cons.inj eq).1] at second
          contradiction
      | cons k ks =>
          rw [hr] at eq
          rw [(List.cons.inj eq).1]
          exact List.mem_cons_self
  obtain ⟨comma, mem, kind⟩ := mem_row_comma inside
  refine ⟨comma, List.mem_append_right _ (List.mem_cons_of_mem _ mem), kind, ?_⟩
  exact (List.pairwise_cons.1 (List.pairwise_append.1 lined).2.1).1 comma mem

/-! ## The range that is removed -/

theorem not_isVisible_of_blankBetween {source : List Char} {a b n : Nat}
    (blank : blankBetween source a b = true) (left : a ≤ n) (right : n < b) :
    ¬ IsVisible source n := by
  rintro ⟨c, at_n, visible⟩
  rw [isBlank_of_blankBetween blank left right at_n] at visible
  contradiction

/-- What stands before an entry stands before the blanks in front of it on its line. -/
theorem stop_le_of_blank (literal : IsLiteral x.source object)
    (shows_ : ∀ c ∈ object.children, Shows x.source c)
    (separate : separated (row object.children) = true)
    (split : object.children = front ++ pair :: behind) (member : pair.kind.isMember = true)
    {s : Nat} (begins : StartsLine x.source s) (blank : blankBetween x.source s pair.start = true) :
    ∀ c ∈ front, c.stop ≤ s := by
  have order := literal.fits.lined.pairwise
  rw [split] at order shows_ separate
  rw [List.pairwise_append] at order
  have outside {n : Nat} (visible : IsVisible x.source n) (before : n < pair.start) : n < s := by
    rw [← Nat.not_le]
    intro left
    exact not_isVisible_of_blankBetween blank left before visible
  have other {c : Tree} (hc : c ∈ front) (none : c.kind.isMember = false) : c.stop ≤ s := by
    have seen := shows_ c (List.mem_append_left _ hc)
    have proper := seen.proper
    have before := order.2.2 c hc pair List.mem_cons_self
    have start := outside seen.start (by omega)
    rw [← Nat.not_lt]
    intro across
    obtain visible | inside := seen.ends none
    · have := outside visible (by omega)
      omega
    · obtain rfl | newline := begins
      · omega
      · refine inside (List.mem_of_getElem? (i := s - 1 - c.start) ?_)
        rw [Text.getElem?_slice (by omega), ← newline]
        congr 1
        omega
  intro c hc
  cases isMember : c.kind.isMember with
  | false => exact other hc isMember
  | true =>
      obtain ⟨comma, mem, kind, after⟩ := exists_comma hc isMember member separate order.1
      have := other mem (by rw [kind]; rfl)
      have := (shows_ comma (List.mem_append_left _ mem)).proper
      omega

/-- Nothing but white space stands between the entry and the comma behind it, if there is one. -/
def CommaAtHand (x : Syntax) (object pair : Tree) : Prop :=
  ∀ comma ∈ commaBehind? object pair.stop, blankBetween x.source pair.stop comma.start = true

instance (x : Syntax) (object pair : Tree) : Decidable (CommaAtHand x object pair) :=
  inferInstanceAs (Decidable (∀ comma ∈ commaBehind? object pair.stop,
    blankBetween x.source pair.stop comma.start = true))

theorem removalRange_cases {source : List Char} (bound : pair.start ≤ source.length) :
    removalRange source object pair = (pair.start, entryEnd source object pair) ∨
      ∃ start stop, removalRange source object pair = (start, stop) ∧ start ≤ pair.start ∧
        StartsLine source start ∧ blankBetween source start pair.start = true ∧
        entryEnd source object pair ≤ stop ∧
        blankBetween source (entryEnd source object pair) stop = true := by
  unfold removalRange
  simp only
  split
  · rename_i next found
    split
    · rename_i blank
      rw [Bool.and_eq_true] at blank
      exact .inr ⟨_, _, rfl, lineStart_le _ _, startsLine_lineStart bound, blank.1,
        Nat.le_of_lt (nextLine?_eq_some found).1, blank.2⟩
    · exact .inl rfl
  · exact .inl rfl

/-- The children of a literal around an entry that is removed; those of `met` go with it. -/
structure Parts (x : Syntax) (object pair : Tree) (e : Edit) (front met behind : List Tree) :
    Prop where
  split : object.children = front ++ pair :: (met ++ behind)
  comma : (met = [] ∧ (CommaAtHand x object pair ↔ ∀ c ∈ behind, c.kind ≠ .token ",")) ∨
    CommaAtHand x object pair ∧ ∃ comma, met = [comma] ∧ comma.kind = .token ","
  proper : e.start < e.stop
  before : ∀ c ∈ front, c.stop ≤ e.start
  meets : ∀ c ∈ pair :: met, e.start < c.stop ∧ c.start < e.stop
  after : ∀ c ∈ behind, e.stop ≤ c.start

theorem exists_parts (literal : IsLiteral x.source object)
    (shows_ : ∀ c ∈ object.children, Shows x.source c)
    (separate : separated (row object.children) = true) (mem : pair ∈ object.children)
    (member : pair.kind.isMember = true) : ∃ front met behind,
      Parts x object pair (.remove (removalRange x.source object pair).1
        (removalRange x.source object pair).2) front met behind := by
  obtain ⟨front, tail, split⟩ := List.append_of_mem mem
  have proper := (shows_ pair mem).proper
  obtain ⟨bound, order⟩ : pair.start ≤ x.source.length ∧
      object.children.Pairwise fun t u => t.stop ≤ u.start := by
    obtain ⟨c, at_start, -⟩ := (shows_ pair mem).start
    exact ⟨Nat.le_of_lt (List.getElem?_eq_some_iff.1 at_start).1, literal.fits.lined.pairwise⟩
  rw [split, List.pairwise_append, List.pairwise_cons] at order
  generalize hr : removalRange x.source object pair = range
  generalize hs : entryEnd x.source object pair = stop
  have around : range.1 ≤ pair.start ∧ (∀ c ∈ front, c.stop ≤ range.1) ∧ stop ≤ range.2 ∧
      ∀ c ∈ object.children, stop ≤ c.start → range.2 ≤ c.start := by
    obtain eq | ⟨start, next, eq, left, begins, blank, right, blank'⟩ := removalRange_cases bound
    · rw [hr, hs] at eq
      rw [eq]
      exact ⟨Nat.le_refl _, fun c hc => order.2.2 c hc pair List.mem_cons_self, Nat.le_refl _,
        fun _ _ => id⟩
    · rw [hr] at eq
      rw [hs] at right blank'
      rw [eq]
      refine ⟨left, stop_le_of_blank literal shows_ separate split member begins blank, right,
        fun c hc behind => Nat.le_of_not_lt fun inside => ?_⟩
      exact not_isVisible_of_blankBetween blank' behind inside (shows_ c hc).start
  obtain ⟨left, before, right, after⟩ := around
  have ofTail {c : Tree} (hc : c ∈ tail) : c ∈ object.children := by
    rw [split]
    exact List.mem_append_right _ (List.mem_cons_of_mem _ hc)
  have commaOfTail {comma : Tree} (found : commaBehind? object pair.stop = some comma) :
      comma ∈ tail := by
    obtain ⟨⟨hc, kind⟩, behind⟩ := commaBehind?_eq_some found
    have := (shows_ comma hc).proper
    rw [split] at hc
    rcases List.mem_append.1 hc with hc | hc
    · have := order.2.2 comma hc pair List.mem_cons_self
      omega
    rcases List.mem_cons.1 hc with rfl | hc
    · rw [kind] at member
      contradiction
    · exact hc
  -- an entry whose comma is not taken ends with itself
  have alone (ends : stop = pair.stop)
      (commas : CommaAtHand x object pair ↔ ∀ c ∈ tail, c.kind ≠ .token ",") :
      Parts x object pair (.remove range.1 range.2) front [] tail := by
    refine ⟨split, .inl ⟨rfl, commas⟩, ?_, before, fun c hc => ?_, fun c hc =>
      after c (ofTail hc) (ends ▸ order.2.1.1 c hc)⟩
    · simp only [Edit.remove]
      omega
    · rw [List.mem_singleton.1 hc]
      simp only [Edit.remove]
      omega
  unfold entryEnd at hs
  cases found : commaBehind? object pair.stop with
  | none =>
      rw [found] at hs
      refine ⟨front, [], tail, alone hs.symm ⟨fun _ c hc kind => ?_, fun _ => ?_⟩⟩
      · have := List.find?_eq_none.1 found c (ofTail hc)
        simp [kind, order.2.1.1 c hc] at this
      · simp [CommaAtHand, found]
  | some comma =>
      rw [found] at hs
      have mem := commaOfTail found
      obtain ⟨⟨-, kind⟩, behind⟩ := commaBehind?_eq_some found
      have atHand : CommaAtHand x object pair ↔
          blankBetween x.source pair.stop comma.start = true := by
        simp [CommaAtHand, found]
      simp only at hs
      split at hs
      · rename_i blank
        obtain ⟨between, rest, rfl⟩ := List.append_of_mem mem
        have tailOrder := order.2.1.2
        rw [List.pairwise_append, List.pairwise_cons] at tailOrder
        have none : between = [] := by
          refine List.eq_nil_iff_forall_not_mem.2 fun c hc => ?_
          have seen := shows_ c (ofTail (List.mem_append_left _ hc))
          have := order.2.1.1 c (List.mem_append_left _ hc)
          have := tailOrder.2.2 c hc comma List.mem_cons_self
          have := seen.proper
          exact not_isVisible_of_blankBetween blank (by omega) (by omega) seen.start
        subst none
        have commaProper := (shows_ comma (ofTail mem)).proper
        refine ⟨front, [comma], rest, split, .inr ⟨atHand.2 blank, comma, rfl, kind⟩, ?_, before,
          fun c hc => ?_, fun c hc => ?_⟩
        · simp only [Edit.remove]
          omega
        · simp only [Edit.remove]
          rcases List.mem_cons.1 hc with rfl | hc
          · omega
          · rw [List.mem_singleton.1 hc]
            omega
        · exact after c (ofTail (List.mem_cons_of_mem _ hc)) (hs ▸ tailOrder.2.1.1 c hc)
      · rename_i notBlank
        refine ⟨front, [], tail, alone hs.symm ⟨fun blank => absurd (atHand.1 blank) notBlank,
          fun none => absurd kind (none comma mem)⟩⟩

/-! ## The literal afterwards -/

def others (object : Tree) : List Tree := object.children.filter (·.kind != .token ",")

namespace Renewal

variable (h : Renewal x props o written y) {e : Edit} {met : List Tree}
  (edited : Edited x props o .argTypes object .removed e)
  (parts : Parts x object pair e front met behind)

include h edited parts

theorem children_removed : (written .argTypes).children =
    front.map (carried (edits x props o)) ++ behind.map (carried (edits x props o)) := by
  have put := h.literals .argTypes object .removed e edited.found edited.planned
  generalize written .argTypes = t at put
  cases put with
  | removed =>
      exact children_reopened_of_split _ [] (h.isLiteral edited.found).fits
        (show object.children = front ++ ((pair :: met) ++ behind) from parts.split) parts.proper
        parts.before parts.meets parts.after

theorem separated_removed (member : pair.kind.isMember = true)
    (separate : separated (row object.children) = true) :
    separated (row (written .argTypes).children) = true ↔ CommaAtHand x object pair := by
  have kind (t : Tree) : (carried (edits x props o) t).kind = t.kind := Tree.kind_mapPlaces _ t
  rw [parts.split, row_append, row_cons_member member, row_append] at separate
  have front := separated_append member _ separate
  rw [h.children_removed edited parts, row_append, row_map kind, row_map kind, front]
  have tail := (front _).symm.trans separate
  obtain ⟨rfl, commas⟩ | ⟨atHand, comma, rfl, isComma⟩ := parts.comma
  · rw [commas]
    obtain none | ⟨ls, eq, -⟩ := separated_cons tail
    · change row behind = [] at none
      rw [none]
      refine iff_of_true rfl fun c hc isComma => ?_
      have mem : Kind.token "," ∈ row behind :=
        List.mem_filter.2 ⟨isComma ▸ List.mem_map_of_mem hc, rfl⟩
      rw [none] at mem
      contradiction
    · change row behind = _ at eq
      rw [eq]
      obtain ⟨comma, mem, isComma⟩ := mem_row_comma (eq ▸ List.mem_cons_self)
      refine iff_of_false ?_ fun none => none comma mem isComma
      cases ls <;> simp [separated, Kind.isMember, Kind.isNamed]
  · rw [row_cons_comma isComma] at tail
    obtain none | ⟨ls, eq, behind⟩ := separated_cons tail
    · contradiction
    · rw [← (List.cons.inj eq).2] at behind
      exact iff_of_true behind atHand

theorem others_removed :
    (others (written .argTypes)).map (fun c => (c.kind, y.textOf c)) =
      ((others object).filter (· ≠ pair)).map fun c => (c.kind, x.textOf c) := by
  have order := (h.isLiteral edited.found).fits.lined.pairwise
  have range {c : Tree} (hc : c ∈ object.children) :=
    fits_of_mem_children (h.isLiteral edited.found).fits hc
  rw [parts.split] at order range
  rw [List.pairwise_append, List.pairwise_cons] at order
  have kept {cs : List Tree} (sub : ∀ c ∈ cs, c ∈ front ++ pair :: (met ++ behind))
      (apart : ∀ c ∈ cs, c.stop ≤ e.start ∨ e.stop ≤ c.start) :
      ((cs.map (carried (edits x props o))).filter (·.kind != .token ",")).map
          (fun c => (c.kind, y.textOf c)) =
        ((cs.filter (·.kind != .token ",")).filter (· ≠ pair)).map
          fun c => (c.kind, x.textOf c) := by
    have kind (t : Tree) : (carried (edits x props o) t).kind = t.kind := Tree.kind_mapPlaces _ t
    have same : (cs.filter (·.kind != .token ",")).filter (· ≠ pair) =
        cs.filter (·.kind != .token ",") := by
      refine List.filter_eq_self.2 fun c hc => decide_eq_true ?_
      rintro rfl
      have := apart c (List.mem_filter.1 hc).1
      have := parts.meets c List.mem_cons_self
      omega
    rw [same, List.filter_map, List.map_map]
    simp only [Function.comp_def, kind]
    refine List.map_congr_left fun c hc => ?_
    obtain ⟨fits, left, right⟩ := range (sub c (List.mem_filter.1 hc).1)
    rw [h.textOf_carried (h.untouched edited left right (apart c (List.mem_filter.1 hc).1))
      fits.start_le_stop]
  have taken : ((pair :: met).filter (·.kind != .token ",")).filter (· ≠ pair) = [] := by
    have none : (pair :: met).filter (fun c => c.kind != .token "," && decide (c ≠ pair)) = [] := by
      refine List.filter_eq_nil_iff.2 fun c hc => ?_
      rcases List.mem_cons.1 hc with rfl | hc
      · simp
      · obtain ⟨rfl, -⟩ | ⟨-, comma, rfl, isComma⟩ := parts.comma
        · contradiction
        · rw [List.mem_singleton.1 hc, isComma]
          simp
    rw [List.filter_filter, ← none]
    simp only [Bool.and_comm]
  rw [others, others, h.children_removed edited parts,
    show object.children = front ++ ((pair :: met) ++ behind) from parts.split]
  simp only [List.filter_append, List.map_append, taken, List.nil_append]
  rw [kept (fun c hc => List.mem_append_left _ hc) fun c hc => .inl (parts.before c hc),
    kept (fun c hc => by simp [hc]) fun c hc => .inr (parts.after c hc)]

end Renewal

/-! ## The statement -/

section

variable {kind : Kind} {P : Tree → Prop}

mutual

theorem everywhere_bare? : {t v : Tree} → Everywhere kind P t → bare? t = some v →
    Everywhere kind P v
  | .node k l s e cs, v, h, hv => by
      have below := everywhere_bareAmong? (v := v) fun c hc => h.child hc
      unfold bare? at hv
      split at hv
      · exact below hv
      · exact below hv
      · exact below hv
      · exact Option.some.inj hv ▸ h

theorem everywhere_bareAmong? : {ts : List Tree} → {v : Tree} →
    (∀ t ∈ ts, Everywhere kind P t) → bareAmong? ts = some v → Everywhere kind P v
  | [], _, _, hv => by
      rw [bareAmong?] at hv
      contradiction
  | t :: ts, v, h, hv => by
      rw [bareAmong?] at hv
      split at hv
      · exact everywhere_bare? (h t List.mem_cons_self) hv
      · exact everywhere_bareAmong? (fun u hu => h u (List.mem_cons_of_mem _ hu)) hv

end

theorem everywhere_objectOf? (h : Everywhere kind P x.root) {name : String}
    (found : objectOf? x name = some object) : Everywhere kind P object := by
  obtain ⟨d, value, declared, valued, bare, -⟩ := objectOf?_eq_some found
  obtain ⟨statement, stated, hd⟩ := List.mem_flatMap.1 (List.mem_of_find?_eq_some declared)
  have hs := h.of_mem_namedChildren stated
  refine everywhere_bare? (Everywhere.of_child? ?_ valued) bare
  unfold declarators at hd
  simp only at hd
  split at hd
  · contradiction
  · rename_i declaration found
    split at hd
    · refine Everywhere.of_mem_namedChildren ?_ (List.mem_filter.1 hd).1
      split at found
      · exact hs.of_child? found
      · exact Option.some.inj found ▸ hs
    · contradiction

end

theorem exists_removed (h : Renewal x props o written y)
    (all : Everywhere .object (Shows x.source) x.root) (disabled : o.generateArgTypes = false)
    (found : objectOf? x metaName = some object)
    (single : object.namedChildren.filter (isEntry x Region.argTypes.key) = [pair])
    (separate : separated (row object.children) = true) :
    ∃ object', objectOf? y metaName = some object' ∧
      (others object').map (fun c => (c.kind, y.textOf c)) =
        ((others object).filter (· ≠ pair)).map (fun c => (c.kind, x.textOf c)) ∧
      (separated (row object'.children) = true ↔ CommaAtHand x object pair) := by
  have literal := h.isLiteral found
  have first : pairOf? x object Region.argTypes.key = some pair := by
    rw [pairOf?_eq, ← List.head?_filter, single]
    rfl
  have mem := Tree.mem_children_of_mem_namedChildren (List.mem_of_find?_eq_some first)
  have member : pair.kind.isMember = true := by
    rw [(isEntry_eq_true.1 (List.find?_some first)).1]
    rfl
  have shows_ : ∀ c ∈ object.children, Shows x.source c := fun c hc =>
    (everywhere_objectOf? all found).holds_child literal.kind hc
  let range := removalRange x.source object pair
  have edited : Edited x props o .argTypes object .removed (.remove range.1 range.2) := by
    refine ⟨found, ?_⟩
    rw [plan_of_some (r := .argTypes) found, isWritten, disabled, if_neg Bool.false_ne_true,
      remove, first]
  obtain ⟨front, met, behind, parts⟩ := exists_parts literal shows_ separate mem member
  exact ⟨written .argTypes, h.objectOf?_written edited, h.others_removed edited parts,
    h.separated_removed edited parts member separate⟩

theorem removal_keeps_separation {story : String}
    (clear : (parse story.toList).root.firstFault? = none) (named : o.defaultStory ≠ metaName)
    (disabled : o.generateArgTypes = false)
    (found : objectOf? (parse story.toList) metaName = some object)
    (single : object.namedChildren.filter (isEntry (parse story.toList) Region.argTypes.key) =
      [pair])
    (separate : separated (row object.children) = true) :
    ∃ content report, reconcile story props o = .updated content report ∧
      (Reparsed (parse story.toList) props o (parse content.toList).root →
        ∃ object', objectOf? (parse content.toList) metaName = some object' ∧
          (others object').map (fun c => (c.kind, (parse content.toList).textOf c)) =
            ((others object).filter (· ≠ pair)).map
              (fun c => (c.kind, (parse story.toList).textOf c)) ∧
          (separated (row object'.children) = true ↔
            CommaAtHand (parse story.toList) object pair)) := by
  obtain ⟨b, lined⟩ := parse_fits clear
  have all := parse_shows clear
  have source : (parse story.toList).source = story.toList := parse_source
  replace lined : Lined (parse story.toList).source 0 (parse story.toList).root.children b := by
    rwa [source]
  have reconciled : reconcile story props o = ofSyntax (parse story.toList) props o :=
    reconcile_of_clear rfl clear
  have located : (objectOf? (parse story.toList) (owner o .argTypes)).isSome := by
    rw [owner, found]
    rfl
  obtain ⟨report, updated⟩ := ofSyntax_of_found props lined named located
  rw [← reconciled] at updated
  refine ⟨_, report, updated, fun reparsed => ?_⟩
  obtain ⟨written, h⟩ := exists_renewal named updated reparsed
  exact exists_removed h (by rwa [source]) disabled found single separate

theorem removal_keeps_separation_between_two :
    let x := parse
      ("const meta = \x7b a: 1, argTypes: \x7b\x7d, b: 2 \x7d;\n" ++
        "const D = \x7b args: \x7b\x7d \x7d;\n").toList
    let y := parse ("const meta = \x7b a: 1,  b: 2 \x7d;\n" ++
      "const D = \x7b args: \x7b\x7d \x7d;\n").toList
    ∃ object object', objectOf? x metaName = some object ∧ objectOf? y metaName = some object' ∧
      (others object').length + 1 = (others object).length ∧
        separated (row object'.children) = true := by
  intro x y
  have located : (objectOf? x metaName).isSome ∧ ∀ object ∈ objectOf? x metaName,
      (object.namedChildren.filter (isEntry x Region.argTypes.key)).length = 1 ∧
        separated (row object.children) = true ∧
        ∀ pair ∈ object.namedChildren.filter (isEntry x Region.argTypes.key),
          CommaAtHand x object pair ∧
            ((others object).filter (· ≠ pair)).length + 1 = (others object).length := by
    decide +kernel
  obtain ⟨object, found⟩ := Option.isSome_iff_exists.1 located.1
  obtain ⟨length, separate, only⟩ := located.2 object found
  obtain ⟨pair, single⟩ := List.length_eq_one_iff.1 length
  obtain ⟨atHand, count⟩ := only pair (single ▸ List.mem_singleton_self pair)
  obtain ⟨content, report, updated, kept⟩ := @removal_keeps_separation [] ⟨"D", false, false⟩
    object pair _ (by decide +kernel) (by decide) rfl found single separate
  have spliced : reconcile
      ("const meta = \x7b a: 1, argTypes: \x7b\x7d, b: 2 \x7d;\n" ++
        "const D = \x7b args: \x7b\x7d \x7d;\n") [] ⟨"D", false, false⟩ =
      .updated ("const meta = \x7b a: 1,  b: 2 \x7d;\n" ++
        "const D = \x7b args: \x7b\x7d \x7d;\n") ⟨.removed, true, []⟩ := by
    decide +kernel
  obtain ⟨rfl, -⟩ := Reconciliation.updated.inj (updated.symm.trans spliced)
  obtain ⟨object', found', others_, separate'⟩ :=
    kept ⟨by decide +kernel, _, areWritten_reread y, by decide +kernel⟩
  have lengths := congrArg List.length others_
  rw [List.length_map, List.length_map] at lengths
  exact ⟨object, object', found, found', lengths ▸ count, separate'.2 atHand⟩

end PropStories.Reconciliation
