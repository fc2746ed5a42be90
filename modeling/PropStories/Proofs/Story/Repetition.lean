import PropStories.Proofs.Story.Isolation
import PropStories.Proofs.Story.Rereading

/-!
# Reconciling again

Main statement: of two reconciliations the last one wins. A story that has been reconciled with some
props and is reconciled with others reads as if only the latter had been used.
-/

namespace PropStories.Reconciliation

open Story Tsx
open Edit (place placeFrom spliceFrom InOrder)
open Text (slice)

variable {x y : Syntax} {props later : List Synth.PropDescriptor} {o : ReconcileOptions}
  {written : Region → Tree} {r : Region}

/-! ## One region -/

/-- In the order of the arguments: the edits of a region in a story, in the story reconciled, and in
the story with other props. The first one's text begins at `n` once it is made. -/
inductive Redone (n : Nat) : Option Edit → Option Edit → Option Edit → Prop where
  | nothing : Redone n none none none
  | removed (e : Edit) : Redone n (some e) none (some e)
  | written (start stop : Nat) (front old new behind : List Char) (proper : old ≠ []) :
      Redone n (some ⟨start, stop, front ++ (old ++ behind)⟩)
        (some ⟨n + front.length, n + front.length + old.length, new⟩)
        (some ⟨start, stop, front ++ (new ++ behind)⟩)

def SingleTable (x : Syntax) : Prop :=
  ∀ object ∈ objectOf? x metaName,
    (object.namedChildren.filter (isEntry x Region.argTypes.key)).length ≤ 1

instance (x : Syntax) : Decidable (SingleTable x) :=
  inferInstanceAs (Decidable (∀ object ∈ objectOf? x metaName,
    (object.namedChildren.filter (isEntry x Region.argTypes.key)).length ≤ 1))

theorem rendered_ne_nil (r : Region) (props : List Synth.PropDescriptor) (indent : List Char) :
    rendered r props indent ≠ [] := by
  obtain ⟨inner, eq⟩ := rendered_eq r props indent
  rw [eq]
  exact List.cons_ne_nil _ _

theorem edit?_of_edit {p : RegionPlan} {change : Change} {e : Edit}
    (h : p.edit = some (change, e)) : p.edit? = some e :=
  RegionPlan.edit?_eq_some.2 ⟨change, h⟩

theorem edit?_of_none {p : RegionPlan} (h : p.edit = none) : p.edit? = none :=
  congrArg (Option.map Prod.snd) h

def IsTextPlace (x : Syntax) (props : List Synth.PropDescriptor) (o : ReconcileOptions)
    (r : Region) (n : Nat) : Prop :=
  ∀ object change e, Edited x props o r object change e →
    n = textPlace (edits x props o) object e

theorem Edited.isTextPlace {object : Tree} {change : Change} {e : Edit}
    (edited : Edited x props o r object change e) :
    IsTextPlace x props o r (textPlace (edits x props o) object e) := by
  intro object' change' e' edited'
  have sameObject := edited.found.symm.trans edited'.found
  have sameEdit := edited.planned.symm.trans edited'.planned
  obtain rfl := Option.some.inj sameObject
  obtain ⟨-, rfl⟩ := Prod.mk.inj (Option.some.inj sameEdit)
  rfl

namespace Renewal

variable (h : Renewal x props o written y)

include h

theorem redone_of_none (found : Story.objectOf? x (owner o r) = none) :
    Redone 0 (plan x props o r).edit? (plan y later o r).edit? (plan x later o r).edit? := by
  have found' : Story.objectOf? y (owner o r) = none := by
    rw [h.objectOf?, found]
    rfl
  rw [edit?_of_none (edit_plan_of_none found), edit?_of_none (edit_plan_of_none found),
    edit?_of_none (edit_plan_of_none found')]
  exact .nothing

theorem outside_of_untouched {object : Tree} (found : Story.objectOf? x (owner o r) = some object)
    (untouched : (plan x props o r).edit = none) : Outside x props o object.start object.stop := by
  obtain ⟨b, lined⟩ := h.lined
  intro s other otherFound edited
  have different : s ≠ r := by
    rintro rfl
    rw [untouched] at edited
    contradiction
  have := objects_apart lined (owner_ne h.named different) otherFound found
  omega

theorem objectOf?_untouched {object : Tree} (found : Story.objectOf? x (owner o r) = some object)
    (untouched : (plan x props o r).edit = none) :
    Story.objectOf? y (owner o r) = some (rebuilt x props o written object) ∧
      pairOf? y (rebuilt x props o written object) r.key =
        (pairOf? x object r.key).map (rebuilt x props o written) := by
  refine ⟨?_, h.pairOf?_of_outside (h.isLiteral found).fits (h.outside_of_untouched found untouched)
    r.key⟩
  rw [h.objectOf?, found]
  rfl

theorem redone_upsert (between : LineBreakBetween x o) {object : Tree}
    (found : Story.objectOf? x (owner o r) = some object) (writes : isWritten o r = true) :
    ∃ n, Redone n (plan x props o r).edit? (plan y later o r).edit? (plan x later o r).edit? ∧
      IsTextPlace x props o r n := by
  have planned (props : List Synth.PropDescriptor) :
      plan x props o r = upsert x props r object := by
    rw [plan_of_some found, if_pos writes]
  have planned' {t : Tree} (found' : Story.objectOf? y (owner o r) = some t) :
      plan y later o r = upsert y later r t := by
    rw [plan_of_some found', if_pos writes]
  cases course x object r with
  | replaces first named literal line edit =>
      rename_i pair value indent
      have edited : Edited x props o r object .replaced
          ⟨value.start, value.stop, rendered r props indent⟩ :=
        ⟨found, (planned props).symm ▸ edit props⟩
      obtain ⟨pair', value', holds⟩ :=
        h.holds_replaced between edited first named literal line rfl rfl rfl
      refine ⟨_, ?_, edited.isTextPlace⟩
      rw [planned props, planned later, planned' (h.objectOf?_written edited),
        edit?_of_edit (edit props), edit?_of_edit (edit later), edit?_of_edit holds.edit]
      have redone {n : Nat} := @Redone.written n value.start value.stop []
        (rendered r props indent) (rendered r later indent) [] (rendered_ne_nil r props indent)
      simpa only [List.nil_append, List.append_nil, List.length_nil, Nat.add_zero] using redone
  | leaves first other =>
      rename_i pair
      have untouched : (plan x props o r).edit = none := by
        rw [planned props]
        exact edit_upsert_of_other first other
      obtain ⟨found', first'⟩ := h.objectOf?_untouched found untouched
      rw [first, Option.map_some] at first'
      have other' : ∀ value, (rebuilt x props o written pair).child? .value = some value →
          value.kind ≠ .object := by
        have kind := (isEntry_eq_true.1 (List.find?_some first)).1
        have proper : pair.kind ≠ .object := by
          rw [kind]
          decide
        intro value named
        rw [Tree.child?_map (h.children proper) h.label?] at named
        obtain ⟨old, oldNamed, rfl⟩ := Option.map_eq_some_iff.1 named
        rw [h.kind]
        exact other old oldNamed
      refine ⟨0, ?_, ?_⟩
      · rw [planned later, planned' found', edit?_of_none untouched,
          edit?_of_none (edit_upsert_of_other first other),
          edit?_of_none (edit_upsert_of_other first' other')]
        exact .nothing
      · intro object' change e edited
        rw [edited.planned] at untouched
        contradiction
  | inserts fresh edit =>
      obtain ⟨start, stop, front, indent, behind, surrounds, edit⟩ := edit
      have edited : Edited x props o r object .inserted
          ⟨start, stop, insertion r props front indent behind⟩ :=
        ⟨found, (planned props).symm ▸ edit props⟩
      obtain ⟨pair', value', holds⟩ := h.holds_inserted edited fresh surrounds rfl
      refine ⟨_, ?_, edited.isTextPlace⟩
      rw [planned props, planned later, planned' (h.objectOf?_written edited),
        edit?_of_edit (edit props), edit?_of_edit (edit later), edit?_of_edit holds.edit]
      exact .written start stop (ahead r front indent) _ _ behind (rendered_ne_nil r props indent)

theorem redone_remove (single : SingleTable x) {object : Tree}
    (found : Story.objectOf? x (owner o r) = some object) (removes : isWritten o r = false) :
    ∃ n, Redone n (plan x props o r).edit? (plan y later o r).edit? (plan x later o r).edit? ∧
      IsTextPlace x props o r n := by
  have planned (props : List Synth.PropDescriptor) : plan x props o r = remove x r object := by
    rw [plan_of_some found, if_neg (by rw [removes]; exact Bool.false_ne_true)]
  have planned' {t : Tree} (found' : Story.objectOf? y (owner o r) = some t) :
      plan y later o r = remove y r t := by
    rw [plan_of_some found', if_neg (by rw [removes]; exact Bool.false_ne_true)]
  have nothing {z : Syntax} {t : Tree} (absent : pairOf? z t r.key = none) :
      (remove z r t).edit = none := by
    unfold remove
    rw [absent]
    rfl
  cases first : pairOf? x object r.key with
  | none =>
      have untouched : (plan x props o r).edit = none := by
        rw [planned props]
        exact nothing first
      obtain ⟨found', first'⟩ := h.objectOf?_untouched found untouched
      rw [first, Option.map_none] at first'
      refine ⟨0, ?_, ?_⟩
      · rw [planned later, planned' found', edit?_of_none untouched,
          edit?_of_none (nothing first), edit?_of_none (nothing first')]
        exact .nothing
      · intro object' change e edited
        rw [edited.planned] at untouched
        contradiction
  | some pair =>
      let range := removalRange x.source object pair
      have edit : (remove x r object).edit = some (.removed, .remove range.1 range.2) := by
        unfold remove
        rw [first]
      have edited : Edited x props o r object .removed (.remove range.1 range.2) :=
        ⟨found, (planned props).symm ▸ edit⟩
      have covers := removalRange_covers (h.isLiteral found) (List.mem_of_find?_eq_some first)
      have few : (object.namedChildren.filter (Reconciliation.isEntry x r.key)).length ≤ 1 := by
        cases r with
        | argTypes => exact single object found
        | args => contradiction
      have first' := h.pairOf?_removed edited first few covers
      refine ⟨_, ?_, edited.isTextPlace⟩
      rw [planned props, planned later, planned' (h.objectOf?_written edited),
        edit?_of_edit edit, edit?_of_none (nothing first')]
      exact .removed _

theorem redone (between : LineBreakBetween x o) (single : SingleTable x)
    (later : List Synth.PropDescriptor) (r : Region) :
    ∃ n, Redone n (plan x props o r).edit? (plan y later o r).edit? (plan x later o r).edit? ∧
      IsTextPlace x props o r n := by
  cases found : Story.objectOf? x (owner o r) with
  | none =>
      refine ⟨0, h.redone_of_none found, fun object change e edited => ?_⟩
      rw [edited.found] at found
      contradiction
  | some object =>
      cases writes : isWritten o r with
      | true => exact h.redone_upsert between found writes
      | false => exact h.redone_remove single found writes

end Renewal

/-! ## Both regions -/

/-- Edits of a text, of the text they give, and of the first text with other insertions. The
first ones are those behind `a`, and the text they give from there on begins at `n`. -/
inductive Again : Nat → Nat → List Edit → List Edit → List Edit → Prop where
  | nil {a n : Nat} : Again a n [] [] []
  | removed {a n : Nat} {e : Edit} {es gs fs : List Edit}
      (rest : Again e.stop (n + (e.start - a) + e.text.length) es gs fs) :
      Again a n (e :: es) gs (e :: fs)
  | written {a n start stop : Nat} {front old new behind : List Char} {es gs fs : List Edit}
      (rest : Again stop (n + (start - a) + (front ++ (old ++ behind)).length) es gs fs) :
      Again a n (⟨start, stop, front ++ (old ++ behind)⟩ :: es)
        (⟨n + (start - a) + front.length, n + (start - a) + front.length + old.length, new⟩ :: gs)
        (⟨start, stop, front ++ (new ++ behind)⟩ :: fs)

theorem spliceFrom_again {source : List Char} {a n : Nat} {es gs fs : List Edit}
    (h : Again a n es gs fs) (order : InOrder source.length a es) (front : List Char)
    (length : front.length = n) :
    InOrder (front ++ spliceFrom source a es).length n gs ∧
      spliceFrom (front ++ spliceFrom source a es) n gs = spliceFrom source a fs := by
  induction h generalizing front with
  | nil =>
      refine ⟨?_, List.drop_left' length⟩
      rw [InOrder, List.length_append]
      omega
  | @removed a n e es gs fs _ ih =>
      obtain ⟨left, range, rest⟩ := order
      have sliceLength := Text.length_slice (a := a) (Nat.le_trans range rest.le)
      have split : front ++ spliceFrom source a (e :: es) =
          (front ++ (slice source a e.start ++ e.text)) ++ spliceFrom source e.stop es := by
        simp only [spliceFrom, List.append_assoc]
      have newLength : (front ++ (slice source a e.start ++ e.text)).length =
          n + (e.start - a) + e.text.length := by
        simp only [List.length_append, sliceLength, length, Nat.add_assoc]
      obtain ⟨ordered, eq⟩ := ih rest _ newLength
      rw [← split] at ordered eq
      refine ⟨ordered.mono (by omega), ?_⟩
      rw [Edit.spliceFrom_eq ordered (by omega), eq, split, ← newLength, List.append_assoc,
        List.length_append, ← length, Text.slice_middle, spliceFrom]
  | @written a n start stop before old new behind es gs fs _ ih =>
      obtain ⟨left, range, rest⟩ := order
      simp only at left range rest
      have sliceLength := Text.length_slice (a := a) (Nat.le_trans range rest.le)
      let e : Edit := ⟨start, stop, before ++ (old ++ behind)⟩
      have split : front ++ spliceFrom source a (e :: es) =
          (front ++ (slice source a start ++ (before ++ (old ++ behind)))) ++
            spliceFrom source stop es := by
        simp only [e, spliceFrom, List.append_assoc]
      have newLength : (front ++ (slice source a start ++ (before ++ (old ++ behind)))).length =
          n + (start - a) + (before ++ (old ++ behind)).length := by
        simp only [List.length_append, sliceLength, length, Nat.add_assoc]
      obtain ⟨ordered, eq⟩ := ih rest _ newLength
      rw [← split] at ordered eq
      generalize htext : front ++ spliceFrom source a (e :: es) = text at ordered eq split ⊢
      have atFront : text = front ++ ((slice source a start ++ before) ++
          (old ++ (behind ++ spliceFrom source stop es))) := by
        rw [split]
        simp only [List.append_assoc]
      have atBack : text = (front ++ (slice source a start ++ (before ++ old))) ++
          (behind ++ spliceFrom source stop es) := by
        rw [split]
        simp only [List.append_assoc]
      have inFront := Text.slice_middle front (slice source a start ++ before)
        (old ++ (behind ++ spliceFrom source stop es))
      have inBack := Text.slice_middle (front ++ (slice source a start ++ (before ++ old))) behind
        (spliceFrom source stop es)
      rw [← atFront] at inFront
      rw [← atBack] at inBack
      simp only [List.length_append, sliceLength, length, ← Nat.add_assoc] at inFront inBack ordered eq
      have behindNew : InOrder text.length (n + (start - a) + before.length + old.length) gs :=
        ordered.mono (Nat.le_add_right _ _)
      refine ⟨⟨by simp only; omega, Nat.le_add_right _ _, behindNew⟩, ?_⟩
      have rest := Edit.spliceFrom_eq ordered (Nat.le_add_right _ behind.length)
      rw [inBack, eq] at rest
      simp only [spliceFrom, inFront, rest, List.append_assoc]

theorem Redone.again {n a m : Nat} {e g f : Option Edit} {es gs fs : List Edit}
    (h : Redone n e g f) (position : ∀ d ∈ e, n = m + (d.start - a))
    (rest : match e with
      | none => Again a m es gs fs
      | some d => Again d.stop (m + (d.start - a) + d.text.length) es gs fs) :
    Again a m (e.toList ++ es) (g.toList ++ gs) (f.toList ++ fs) := by
  cases h with
  | nothing => exact rest
  | removed d => exact .removed rest
  | written start stop front old new behind proper =>
      obtain rfl := position _ rfl
      exact .written rest

theorem Again.inOrder {bound a n : Nat} {es gs fs : List Edit} (h : Again a n es gs fs)
    (order : InOrder bound a es) : InOrder bound a fs := by
  induction h with
  | nil => exact order
  | removed _ ih => exact ⟨order.1, order.2.1, ih order.2.2⟩
  | written _ ih => exact ⟨order.1, order.2.1, ih order.2.2⟩

theorem textPlace_head {e : Edit} {es : List Edit} {object : Tree} (left : object.start < e.start)
    (range : e.start ≤ e.stop) : textPlace (e :: es) object e = e.start := by
  rw [textPlace, place, placeFrom, if_pos (by omega)]
  omega

theorem textPlace_next {d e : Edit} {es : List Edit} {object : Tree}
    (before : d.stop ≤ object.start) (left : object.start < e.start) (range : e.start ≤ e.stop) :
    textPlace (d :: e :: es) object e = d.start + d.text.length + (e.start - d.stop) := by
  rw [textPlace, place, placeFrom, if_neg (by omega), placeFrom, if_pos (by omega)]
  omega

theorem exists_order {b : Nat} (props : List Synth.PropDescriptor)
    (lined : Lined x.source 0 x.root.children b) (named : o.defaultStory ≠ metaName) :
    ∃ r s : Region, r ≠ s ∧ ∀ e ∈ (plan x props o r).edit?, ∀ f ∈ (plan x props o s).edit?,
      e.stop < f.start := by
  by_cases before : ∀ e ∈ (plan x props o .argTypes).edit?, ∀ f ∈ (plan x props o .args).edit?,
      e.stop < f.start
  · exact ⟨.argTypes, .args, nofun, before⟩
  · refine ⟨.args, .argTypes, nofun, fun f hf e he => ?_⟩
    obtain front | behind := (editOf_of_edit? lined he).apart lined (Ne.symm named)
      (editOf_of_edit? lined hf)
    · refine absurd (fun e' he' f' hf' => ?_) before
      rw [Option.mem_unique he' he, Option.mem_unique hf' hf]
      exact front
    · exact behind

theorem edits_eq {s : Region} (different : r ≠ s)
    (before : ∀ e ∈ (plan x props o r).edit?, ∀ f ∈ (plan x props o s).edit?,
      e.start < f.start) :
    edits x props o = (plan x props o r).edit?.toList ++ (plan x props o s).edit?.toList := by
  have perm : ((plan x props o .argTypes).edit?.toList ++
      (plan x props o .args).edit?.toList).Perm
        ((plan x props o r).edit?.toList ++ (plan x props o s).edit?.toList) := by
    cases r <;> cases s <;>
      first | contradiction | exact .refl _ | exact List.perm_append_comm
  rw [edits, Edit.fromTheEnd_eq_reverse perm (Edit.pairwise_two before), List.reverse_reverse]

/-- Edits in order start at different places if they belong to different literals. -/
theorem edits_eq_of_inOrder {b : Nat} (lined : Lined x.source 0 x.root.children b)
    (named : o.defaultStory ≠ metaName) {s : Region} (different : r ≠ s) {bound : Nat}
    (order : InOrder bound 0
      ((plan x props o r).edit?.toList ++ (plan x props o s).edit?.toList)) :
    edits x props o = (plan x props o r).edit?.toList ++ (plan x props o s).edit?.toList := by
  refine edits_eq different fun e he f hf => ?_
  have apart := (editOf_of_edit? lined he).apart lined (owner_ne named different)
    (editOf_of_edit? lined hf)
  rw [he, hf] at order
  obtain ⟨-, eRange, between, fRange, -⟩ := order
  omega

theorem exists_edited {b : Nat} (lined : Lined x.source 0 x.root.children b) {e : Edit}
    (he : e ∈ (plan x props o r).edit?) :
    ∃ object change, Edited x props o r object change e ∧ InBraces x.source object e := by
  obtain ⟨change, planned⟩ := RegionPlan.edit?_eq_some.1 he
  obtain ⟨object, found, braces, -⟩ := editOf_plan lined planned
  exact ⟨object, change, ⟨found, planned⟩, braces⟩

namespace Renewal

variable (h : Renewal x props o written y)

include h

theorem exists_again (between : LineBreakBetween x o) (single : SingleTable x)
    (later : List Synth.PropDescriptor) :
    ∃ r s : Region, r ≠ s ∧
      Again 0 0 (edits x props o)
        ((plan y later o r).edit?.toList ++ (plan y later o s).edit?.toList)
        ((plan x later o r).edit?.toList ++ (plan x later o s).edit?.toList) := by
  obtain ⟨b, lined⟩ := h.lined
  obtain ⟨r, s, different, before⟩ := exists_order props lined h.named
  have eq : edits x props o =
      (plan x props o r).edit?.toList ++ (plan x props o s).edit?.toList := by
    refine edits_eq different fun e he f hf => ?_
    have := before e he f hf
    have := (editOf_of_edit? lined he).bounds
    omega
  obtain ⟨n, redone, place⟩ := h.redone between single later r
  obtain ⟨m, redone', place'⟩ := h.redone between single later s
  refine ⟨r, s, different, ?_⟩
  have tail {a k : Nat} (position : ∀ d ∈ (plan x props o s).edit?, m = k + (d.start - a)) :
      Again a k (plan x props o s).edit?.toList (plan y later o s).edit?.toList
        (plan x later o s).edit?.toList := by
    have last : Again a k (_ ++ []) (_ ++ []) (_ ++ []) :=
      redone'.again position (by split <;> exact .nil)
    simpa only [List.append_nil] using last
  rw [eq]
  cases hr : (plan x props o r).edit? with
  | none =>
      rw [hr] at eq redone
      refine redone.again nofun (tail fun d hd => ?_)
      obtain ⟨object, change, edited, braces⟩ := exists_edited lined hd
      rw [hd] at eq
      rw [place' object change d edited, eq]
      exact (textPlace_head braces.left braces.range).trans (by omega)
  | some e =>
      obtain ⟨object, change, edited, braces⟩ := exists_edited lined hr
      rw [hr] at eq redone
      refine redone.again (fun d hd => ?_) (tail fun d hd => ?_)
      · obtain rfl := Option.some.inj hd
        rw [place object change _ edited, eq]
        exact (textPlace_head braces.left braces.range).trans (by omega)
      · obtain ⟨object', change', edited', braces'⟩ := exists_edited lined hd
        have apart := h.others_apart edited' (mem_edits.2 ⟨r, change, edited.planned⟩)
        have order := before e hr d hd
        have eRange := braces.range
        have dRange := braces'.range
        have dRight := braces'.right
        rw [hd] at eq
        rw [place' object' change' d edited', eq]
        refine (textPlace_next ?_ braces'.left braces'.range).trans (by omega)
        obtain rfl | front | behind := apart
        · omega
        · exact Nat.le_of_lt front
        · omega

theorem spliceFrom_eq {b : Nat} (lined : Lined y.source 0 y.root.children b)
    (between : LineBreakBetween x o) (single : SingleTable x)
    (later : List Synth.PropDescriptor) :
    spliceFrom y.source 0 (edits y later o) = spliceFrom x.source 0 (edits x later o) := by
  obtain ⟨b, lined'⟩ := h.lined
  obtain ⟨r, s, different, again⟩ := h.exists_again between single later
  obtain ⟨order, eq⟩ := spliceFrom_again again h.inOrder [] rfl
  rw [List.nil_append, ← h.source] at order eq
  rw [edits_eq_of_inOrder lined h.named different order, eq,
    edits_eq_of_inOrder lined' h.named different (again.inOrder h.inOrder)]

end Renewal

/-! ## The statement -/

theorem exists_found_of_updated {content : String} {report : ReconcileReport}
    (h : ofSyntax x props o = .updated content report) :
    ∃ r, (objectOf? x (owner o r)).isSome := by
  unfold ofSyntax at h
  split at h
  · contradiction
  · rename_i none
    cases table : objectOf? x metaName with
    | some object => exact ⟨.argTypes, by rw [owner, table]; rfl⟩
    | none =>
        cases args : objectOf? x o.defaultStory with
        | some object => exact ⟨.args, by rw [owner, args]; rfl⟩
        | none => exact absurd args (none table)

theorem ofSyntax_of_found {b : Nat} (props : List Synth.PropDescriptor)
    (lined : Lined x.source 0 x.root.children b) (named : o.defaultStory ≠ metaName) (found : (objectOf? x (owner o r)).isSome) :
    ∃ report, ofSyntax x props o =
      .updated (String.ofList (spliceFrom x.source 0 (edits x props o))) report := by
  have made := make?_plans props lined named
  simp only [plan] at made
  unfold ofSyntax
  split
  · rename_i table args
    cases r with
    | argTypes =>
        rw [owner, table] at found
        contradiction
    | args =>
        rw [owner, args] at found
        contradiction
  · simp only [made]
    exact ⟨_, rfl⟩

theorem reconcile_of_clear {story : String} {syn : Syntax} (h : parse story.toList = syn)
    (clear : syn.root.firstFault? = none) : reconcile story props o = ofSyntax syn props o := by
  have line : syn.faultLine? = none := by
    unfold Syntax.faultLine?
    rw [clear]
    rfl
  unfold reconcile
  simp only [h, line]

/-- A story that is updated and read again is a renewal of the first one. -/
theorem exists_renewal {story content : String} {report : ReconcileReport}
    (named : o.defaultStory ≠ metaName) (updated : reconcile story props o = .updated content report)
    (reparsed : Reparsed (parse story.toList) props o (parse content.toList).root) :
    ∃ written, Renewal (parse story.toList) props o written (parse content.toList) := by
  obtain ⟨clear, updated⟩ := reconcile_eq_updated updated
  obtain ⟨b, lined⟩ := parse_fits clear
  obtain ⟨-, written, literals, root⟩ := reparsed
  have program := parse_program story.toList
  generalize hx : parse story.toList = x at *
  have source : x.source = story.toList := hx ▸ parse_source
  rw [← source] at lined
  obtain ⟨r, found⟩ := exists_found_of_updated updated
  obtain ⟨report', eq⟩ := ofSyntax_of_found props lined named found
  have text : (parse content.toList).source = spliceFrom x.source 0 (edits x props o) := by
    rw [updated] at eq
    rw [parse_source, (Reconciliation.updated.inj eq).1, String.toList_ofList]
  exact ⟨written, ⟨b, lined⟩, program, named, text, literals, root⟩

theorem last_reconciliation_wins {story first : String} {report : ReconcileReport}
    (named : o.defaultStory ≠ metaName) (between : LineBreakBetween (parse story.toList) o)
    (single : SingleTable (parse story.toList))
    (updated : reconcile story props o = .updated first report)
    (reparsed : Reparsed (parse story.toList) props o (parse first.toList).root) :
    ∃ content atOnce again, reconcile story later o = .updated content atOnce ∧
      reconcile first later o = .updated content again := by
  obtain ⟨written, h⟩ := exists_renewal named updated reparsed
  obtain ⟨clear, updated⟩ := reconcile_eq_updated updated
  obtain ⟨b, lined⟩ := h.lined
  obtain ⟨b', lined'⟩ := parse_fits reparsed.1
  replace lined' : Lined (parse first.toList).source 0 (parse first.toList).root.children b' := by
    rwa [parse_source]
  obtain ⟨r, found⟩ := exists_found_of_updated updated
  have found' : (objectOf? (parse first.toList) (owner o r)).isSome := by
    rw [h.objectOf?, Option.isSome_map]
    exact found
  obtain ⟨atOnce, eqAtOnce⟩ := ofSyntax_of_found later lined named found
  obtain ⟨again, eqAgain⟩ := ofSyntax_of_found later lined' named found'
  rw [h.spliceFrom_eq lined' between single later] at eqAgain
  exact ⟨_, atOnce, again, (reconcile_of_clear rfl clear).trans eqAtOnce,
    (reconcile_of_clear rfl reparsed.1).trans eqAgain⟩

/-! ## Stories that are read again -/

def valueNodes (y : Syntax) (o : ReconcileOptions) (r : Region) : List Tree :=
  match (objectOf? y (owner o r)).bind fun object =>
    (pairOf? y object r.key).bind (·.child? .value) with
  | some value => value.children
  | none => []

def reread (x : Syntax) (props : List Synth.PropDescriptor) (o : ReconcileOptions) (y : Syntax)
    (r : Region) : Tree :=
  let es := edits x props o
  let comma (n : Nat) : Tree := .node (.token ",") none n (n + 1) []
  match objectOf? x (owner o r), (plan x props o r).edit with
  | some object, some (change, e) =>
      let n := textPlace es object e
      let stop := n + e.text.length - trail e.text
      match change with
      | .replaced =>
          reopened es e object [reopened es e ((pairOf? x object r.key).getD object)
            [.node .object (some .value) n (n + e.text.length) (valueNodes y o r)]]
      | .inserted =>
          reopened es e object ((if e.text.head? = some ',' then [comma n] else []) ++
            entryNode r (n + lead e.text) stop (valueNodes y o r) :: [comma stop])
      | .removed => reopened es e object []
  | _, _ => x.root

theorem exists_pair_of_replaced {object : Tree} {e : Edit}
    (found : objectOf? x (owner o r) = some object)
    (planned : (plan x props o r).edit = some (.replaced, e)) :
    ∃ pair, pairOf? x object r.key = some pair := by
  rw [plan_of_some found] at planned
  split at planned
  · cases course x object r with
    | replaces first => exact ⟨_, first⟩
    | leaves first => exact ⟨_, first⟩
    | inserts _ edit =>
        obtain ⟨start, stop, front, indent, behind, -, edit⟩ := edit
        rw [edit] at planned
        simp at planned
  · unfold remove at planned
    split at planned
    · simp at planned
    · contradiction

theorem areWritten_reread (y : Syntax) : AreWritten x props o (reread x props o y) := by
  intro r object change e found planned
  unfold reread
  simp only [found, planned]
  cases change with
  | replaced =>
      obtain ⟨pair, first⟩ := exists_pair_of_replaced found planned
      rw [first]
      exact .replaced first
  | inserted =>
      refine .inserted fun t ht => ?_
      rcases List.mem_append.1 ht with ht | ht
      · split at ht
        · rw [List.mem_singleton.1 ht]
          rfl
        · contradiction
      · rw [List.mem_singleton.1 ht]
        rfl
  | removed => exact .removed

def stringProp (name : String) : Synth.PropDescriptor :=
  ⟨name, .ofName "string", false, none, "''", ⟨.text, []⟩, "string", "string"⟩

def tabled : String :=
  "const meta = \x7b argTypes: \x7b\x7d \x7d;\nconst D = \x7b args: \x7b b \x7d \x7d;\n"

def untabled : String :=
  "const meta = \x7b  \x7d;\nconst D = \x7b args: \x7b\n  old: '',\n\x7d \x7d;\n"

/-- The table is taken away, and one prop gives way to another one in the args. -/
theorem last_reconciliation_wins_of_renamed :
    reconcile tabled [stringProp "old"] ⟨"D", false, false⟩ =
        .updated untabled ⟨.removed, true, []⟩ ∧
      ∃ content atOnce again,
        reconcile tabled [stringProp "label"] ⟨"D", false, false⟩ = .updated content atOnce ∧
          reconcile untabled [stringProp "label"] ⟨"D", false, false⟩ = .updated content again := by
  have updated : reconcile tabled [stringProp "old"] ⟨"D", false, false⟩ =
      .updated untabled ⟨.removed, true, []⟩ := by
    decide +kernel
  have reparsed : Reparsed (parse tabled.toList) [stringProp "old"] ⟨"D", false, false⟩
      (parse untabled.toList).root :=
    ⟨by decide +kernel, _, areWritten_reread (parse untabled.toList), by decide +kernel⟩
  exact ⟨updated, last_reconciliation_wins (by decide) (by decide +kernel) (by decide +kernel)
    updated reparsed⟩

end PropStories.Reconciliation
