import PropStories.Proofs.Component.Scan
import PropStories.Proofs.Contract.Lowering
import PropStories.Proofs.Story.Renewal
import PropStories.Proofs.Story.Writing

/-!
# Events that have nothing to do with each other

Where no story lies at or above another one, and no component where the story of another lies, each
event comes out as it would alone, and so does what it changes. All this is about the places that
paths lead to: these must not depend on directories that an event may make.
-/

namespace PropStories

open Disk

/-! ## Places that stay where they are -/

/-- Whether a path turns back only from directories that exist, and ends in a name. -/
def Disk.Steady (d : Disk) (path : Path) : Prop :=
  ∃ front base names n, Leads d path front base (names ++ [n])

def Path.Straight (p : Path) : Prop :=
  p.isAbsolute = true ∧ .up ∉ p.parts ∧ p.fileName?.isSome = true

instance (p : Path) : Decidable p.Straight := inferInstanceAs (Decidable (_ ∧ _ ∧ _))

namespace Settings

def storyPlace (s : Settings) (d : Disk) (e : ComponentEvent) : Place :=
  d.destination (s.storyOf e.path)

/-- Whether two events have nothing to do with each other: neither story lies at or above the other
or where the other component lies. -/
def Apart (s : Settings) (d : Disk) (e e' : ComponentEvent) : Prop :=
  ¬ s.storyPlace d e <+: s.storyPlace d e' ∧ ¬ s.storyPlace d e' <+: s.storyPlace d e ∧
    d.destination e.path ≠ s.storyPlace d e' ∧ d.destination e'.path ≠ s.storyPlace d e

/-- Whether some events have nothing to do with each other, and lead to where they do on any disk
that only they have changed. -/
structure Independent (s : Settings) (d : Disk) (es : List ComponentEvent) : Prop where
  components : ∀ e ∈ es, d.Steady e.path
  stories : ∀ e ∈ es, d.Steady (s.storyOf e.path)
  apart : es.Pairwise (s.Apart d)

end Settings

/-! ## Decisions -/

section

variable {s : Settings} {d d' : Disk} {e : ComponentEvent} {component : Path}

theorem describe_congr
    (read : ∀ source, d'.readText component = .ok source ↔ d.readText component = .ok source)
    (name : DisplayName) : (s.describe d' component name).1 = (s.describe d component name).1 := by
  have analysis : (Analysis.ofFile d' component).1 = (Analysis.ofFile d component).1 := by
    unfold Analysis.ofFile
    cases text : d.readText component with
    | ok source => rw [(read source).2 text]
    | error x =>
        cases text' : d'.readText component with
        | ok source => cases text.symm.trans ((read source).1 text')
        | error x' => rfl
  unfold Settings.describe
  simp only [analysis]

/-- A decision depends on the text of the component and on what is at its story. -/
theorem decide_congr
    (read : ∀ source, d'.readText e.path = .ok source ↔ d.readText e.path = .ok source)
    (found : ∀ x, d'.find (s.storyOf e.path) = .ok x ↔ d.find (s.storyOf e.path) = .ok x) :
    (s.decide d' e).decision = (s.decide d e).decision := by
  have there : d'.exists? (s.storyOf e.path) = d.exists? (s.storyOf e.path) := by
    rw [Bool.eq_iff_iff, exists?_iff, exists?_iff]
    exact exists_congr found
  have creation : (s.decideCreation d' e.path (s.storyOf e.path)).decision =
      (s.decideCreation d e.path (s.storyOf e.path)).decision := by
    simp only [Settings.decideCreation, Decided.after_decision, describe_congr read]
  have update (isNew : Bool) (old : d.exists? (s.storyOf e.path) = true) :
      (s.decideUpdate d' isNew e.path (s.storyOf e.path)).decision =
        (s.decideUpdate d isNew e.path (s.storyOf e.path)).decision := by
    obtain ⟨x, seen⟩ := exists?_iff.1 old
    have text : d'.readText (s.storyOf e.path) = d.readText (s.storyOf e.path) := by
      rw [readText, readText, seen, (found x).2 seen]
    simp only [Settings.decideUpdate, Decided.after_decision, describe_congr read, text]
  unfold Settings.decide
  simp only [there]
  split
  · rfl
  · cases e.kind with
    | added =>
        simp only
        split
        next old => simpa using update true old
        next => simpa using creation
    | changed =>
        simp only
        split
        next old => simpa using update false old
        next => simpa using creation
    | deleted => simp only [Settings.decideDeletion, there, Decided.after_decision]

theorem kind_of_delete {x : Decision} {story : Path} (decided : Decides s d e x)
    (h : x = .delete story) : e.kind = .deleted := by
  cases decided with
  | delete kind => exact kind
  | ignore => cases h
  | create => cases h
  | revise => cases h
  | keep => cases h
  | skip => cases h
  | nothingToDelete => cases h
  | fail => cases h
  | breakOff => cases h

theorem exists_of_delete {story : Path} (h : (s.decide d e).decision = .delete story) :
    d.exists? (s.storyOf e.path) = true := by
  have kind := kind_of_delete decide_decides h
  cases there : d.exists? (s.storyOf e.path) with
  | true => rfl
  | false =>
      unfold Settings.decide at h
      cases handled : s.handles e.path with
      | false => simp [handled] at h
      | true => simp [handled, kind, Settings.decideDeletion, there] at h

end

/-! ## One event -/

section

variable {k : Keeper} {s : Settings} {d d' : Disk} {e : ComponentEvent} {ps : List Place}

def Settings.Clear (s : Settings) (d : Disk) (ps : List Place) (e : ComponentEvent) : Prop :=
  d.destination e.path ∉ ps ∧ ∀ p ∈ ps, ¬ s.storyPlace d e <+: p ∧ ¬ p <+: s.storyPlace d e

theorem Settings.Apart.clear_cons {e' : ComponentEvent} (apart : s.Apart d e e')
    (clear : s.Clear d ps e') : s.Clear d (s.storyPlace d e :: ps) e' := by
  obtain ⟨below, above, -, other⟩ := apart
  obtain ⟨outside, unrelated⟩ := clear
  exact ⟨by simp [other, outside], List.forall_mem_cons.2 ⟨⟨above, below⟩, unrelated⟩⟩

theorem component_congr (spread : Spread ps d d') (tree : d.IsTree) {path : Path}
    (steady : d.Steady path) (elsewhere : d.destination path ∉ ps) (source : String) :
    d'.readText path = .ok source ↔ d.readText path = .ok source := by
  obtain ⟨front, base, names, n, l⟩ := steady
  have l' := l.mono spread.here spread.directories
  rw [l.destination] at elsewhere
  have kept := spread.elsewhere _ elsewhere
  rw [readText_eq_ok_iff, readText_eq_ok_iff]
  constructor
  · intro found
    refine l.find l' tree found ?_
    have there := (find_eq_ok_iff.1 found).2.1
    rw [l'.destination] at there
    obtain same | ⟨-, made, -⟩ := kept
    · rw [← same, there]
    · rw [there] at made
      cases made
  · intro found
    refine l'.find l spread.tree found ?_
    have there := (find_eq_ok_iff.1 found).2.1
    rw [l.destination] at there
    obtain same | ⟨empty, -, -⟩ := kept
    · rw [same, there]
    · rw [there] at empty
      cases empty

theorem alike_of_spread (spread : Spread ps d d') (tree : d.IsTree) {path : Path}
    {front : List PathPart} {base : Place} {names : List String} {n : String}
    (l : Leads d path front base (names ++ [n]))
    (clear : ∀ p ∈ ps, ¬ d.destination path <+: p ∧ ¬ p <+: d.destination path) :
    WriteMode.Alike d d' path front base names n := by
  rw [l.destination] at clear
  refine ⟨tree, spread.tree, l, l.mono spread.here spread.directories, fun q _ below => ?_, ?_⟩
  · have onWay : q <+: base ++ (names ++ [n]) := by
      rw [← List.append_assoc]
      exact below.trans (List.prefix_append _ _)
    obtain same | ⟨empty, made, -⟩ := spread.elsewhere q fun member => (clear q member).2 onWay
    · exact .inl same
    · exact .inr ⟨empty, made⟩
  · obtain same | ⟨-, -, p, member, below⟩ :=
      spread.elsewhere _ fun member => (clear _ member).1 (List.prefix_refl _)
    · exact same
    · exact absurd below (clear p member).1

theorem find_congr {path : Path} {front : List PathPart} {base : Place} {names : List String}
    {n : String} (a : WriteMode.Alike d d' path front base names n) (x : Entry) :
    d'.find path = .ok x ↔ d.find path = .ok x := by
  constructor
  · intro found
    have there := (find_eq_ok_iff.1 found).2.1
    rw [a.leads'.destination, a.same] at there
    exact a.leads.find a.leads' a.tree found there
  · intro found
    have there := (find_eq_ok_iff.1 found).2.1
    rw [a.leads.destination, ← a.same] at there
    exact a.leads'.find a.leads a.tree' found there

theorem carryOut_congr (local_ : k.formatter.Local) {x : Decision}
    (decided : Decides k.settings d e x)
    (there : ∀ story, x = .delete story → d.exists? (k.settings.storyOf e.path) = true)
    (here : d'.here = d.here) {front : List PathPart} {base : Place} {names : List String}
    {n : String} (a : WriteMode.Alike d d' (k.settings.storyOf e.path) front base names n) :
    (k.carryOut d' x).result = (k.carryOut d x).result ∧
      SameChange d (k.carryOut d x).disk d' (k.carryOut d' x).disk := by
  cases decided with
  | ignore => exact ⟨rfl, .refl d d'⟩
  | keep story => exact ⟨rfl, .refl d d'⟩
  | skip story reason => exact ⟨rfl, .refl d d'⟩
  | nothingToDelete story => exact ⟨rfl, .refl d d'⟩
  | fail x => exact ⟨rfl, .refl d d'⟩
  | breakOff => exact ⟨rfl, .refl d d'⟩
  | create => exact Keeper.store_congr local_ a _ _ _ _
  | revise => exact Keeper.store_congr local_ a _ _ _ _
  | delete =>
      obtain ⟨x, found⟩ := exists?_iff.1 (there _ rfl)
      exact Keeper.erase_congr found ((find_congr a x).2 found) here

/-- An event comes out the same, and changes the same, on a disk that events it has nothing to do
with have changed. -/
theorem handle_congr (local_ : k.formatter.Local) (tree : d.IsTree) (spread : Spread ps d d')
    (component : d.Steady e.path) (story : d.Steady (k.settings.storyOf e.path))
    (clear : k.settings.Clear d ps e) :
    (k.handle d' e).result = (k.handle d e).result ∧
      SameChange d (k.handle d e).disk d' (k.handle d' e).disk := by
  obtain ⟨front, base, names, n, l⟩ := story
  have a := alike_of_spread spread tree l clear.2
  have read := component_congr spread tree component clear.1
  have same : (k.settings.decide d' e).decision = (k.settings.decide d e).decision :=
    decide_congr read (find_congr a)
  rw [handle_result, handle_result, handle_disk, handle_disk, same]
  exact carryOut_congr local_ decide_decides (fun story h => exists_of_delete h) spread.here a

theorem handle_spread (local_ : k.formatter.Local) (tree : d.IsTree)
    (story : d.Steady (k.settings.storyOf e.path)) :
    Spread [k.settings.storyPlace d e] d (k.handle d e).disk := by
  obtain ⟨front, base, names, n, l⟩ := story
  have unchanged : Spread [k.settings.storyPlace d e] d d := (Spread.refl tree).mono (by simp)
  have decided := decide_decides (s := k.settings) (d := d) (e := e)
  rw [handle_disk]
  generalize (k.settings.decide d e).decision = x at decided
  cases decided with
  | ignore => exact unchanged
  | keep story => exact unchanged
  | skip story reason => exact unchanged
  | nothingToDelete story => exact unchanged
  | fail x => exact unchanged
  | breakOff => exact unchanged
  | create => exact Keeper.store_spread local_ tree l _ _ _ _
  | revise => exact Keeper.store_spread local_ tree l _ _ _ _
  | delete => exact Keeper.erase_spread tree _

end

/-! ## Breaking off -/

section

variable {k : Keeper} {d : Disk} {e : ComponentEvent} {es : List ComponentEvent}

theorem breaksOff_eq_true (h : k.breaksOff d e = true) :
    (k.settings.decide d e).decision = .breakOff := by
  have stored {path : Path} {content told : String} {props : Nat}
      {outcome : WriteResult → Outcome} :
      Failure.isBrokenOff (k.store d path content told props outcome).result = false := by
    unfold Keeper.store
    split <;> rfl
  have erased {path : Path} : Failure.isBrokenOff (k.erase d path).result = false := by
    unfold Keeper.erase
    split <;> rfl
  rw [Keeper.breaksOff, handle_result] at h
  cases decided : (k.settings.decide d e).decision with
  | breakOff => rfl
  | create => simp [decided, Keeper.carryOut, stored] at h
  | revise => simp [decided, Keeper.carryOut, stored] at h
  | delete => simp [decided, Keeper.carryOut, erased] at h
  | ignore => simp [decided, Keeper.carryOut, Failure.isBrokenOff] at h
  | keep => simp [decided, Keeper.carryOut, Failure.isBrokenOff] at h
  | skip => simp [decided, Keeper.carryOut, Failure.isBrokenOff] at h
  | nothingToDelete => simp [decided, Keeper.carryOut, Failure.isBrokenOff] at h
  | fail => simp [decided, Keeper.carryOut, Failure.isBrokenOff] at h

/-- The program goes on if the regions are in literals of their own. -/
theorem breaksOff_eq_false (named : k.settings.defaultStory ≠ metaName) (d : Disk)
    (e : ComponentEvent) : k.breaksOff d e = false := by
  rw [← Bool.not_eq_true]
  intro broken
  have decided := decide_decides (s := k.settings) (d := d) (e := e)
  rw [breaksOff_eq_true broken] at decided
  cases decided with
  | breakOff _ torn =>
      exact Reconciliation.reconcile_ne_torn (o := k.settings.reconcileOptions) _ _ named torn

/-- The events that a run comes to if each of them goes as it would alone: all, or those up to the
first one at which the program breaks off. -/
def Keeper.reached (k : Keeper) (d : Disk) : List ComponentEvent → List ComponentEvent
  | [] => []
  | e :: es => if k.breaksOff d e then [e] else e :: k.reached d es

theorem reached_prefix : k.reached d es <+: es := by
  induction es with
  | nil => exact List.nil_prefix
  | cons e es ih =>
      rw [Keeper.reached]
      split
      · exact List.prefix_append [e] es
      · exact List.cons_prefix_cons.2 ⟨rfl, ih⟩

theorem reached_eq (onward : ∀ e ∈ es, k.breaksOff d e = false) : k.reached d es = es := by
  induction es with
  | nil => rfl
  | cons e es ih =>
      obtain ⟨first, rest⟩ := List.forall_mem_cons.1 onward
      rw [Keeper.reached, first, ih rest]
      rfl

end

/-! ## Several events -/

def Keeper.Joins (k : Keeper) (d : Disk) (es : List ComponentEvent) (d' x : Disk) : Prop :=
  ∀ q, ((∀ e ∈ es, (k.handle d e).disk.at? q = d.at? q) → x.at? q = d'.at? q) ∧
    ∀ e ∈ es, (k.handle d e).disk.at? q ≠ d.at? q → x.at? q = (k.handle d e).disk.at? q

section

variable {t : Session} {s : Settings} {d d' : Disk} {e e' : ComponentEvent}
  {es es' : List ComponentEvent} {ps : List Place}

theorem Settings.Apart.symm (h : s.Apart d e e') : s.Apart d e' e :=
  ⟨h.2.1, h.1, h.2.2.2, h.2.2.1⟩

/-- Where two events that are apart both change something, they make the same directory. -/
theorem same_of_both {k : Keeper} (local_ : k.formatter.Local) (tree : d.IsTree)
    (story : d.Steady (k.settings.storyOf e.path)) (story' : d.Steady (k.settings.storyOf e'.path))
    (apart : k.settings.Apart d e e') {q : Place} (changed : (k.handle d e).disk.at? q ≠ d.at? q)
    (changed' : (k.handle d e').disk.at? q ≠ d.at? q) :
    (k.handle d e).disk.at? q = (k.handle d e').disk.at? q := by
  have above {e : ComponentEvent} (story : d.Steady (k.settings.storyOf e.path))
      (changed : (k.handle d e).disk.at? q ≠ d.at? q) :
      q = k.settings.storyPlace d e ∨
        (k.handle d e).disk.at? q = some .directory ∧ q <+: k.settings.storyPlace d e := by
    by_cases own : q = k.settings.storyPlace d e
    · exact .inl own
    · obtain same | ⟨-, made, p, member, below⟩ :=
        (handle_spread local_ tree story).elsewhere q (by simpa using own)
      · exact absurd same changed
      · exact .inr ⟨made, List.mem_singleton.1 member ▸ below⟩
  obtain own | ⟨made, below⟩ := above story changed
  · obtain own' | ⟨-, below'⟩ := above story' changed'
    · have other := apart.1
      rw [← own, ← own'] at other
      exact absurd List.prefix_rfl other
    · rw [own] at below'
      exact absurd below' apart.1
  · obtain own' | ⟨made', -⟩ := above story' changed'
    · rw [own'] at below
      exact absurd below apart.2.1
    · rw [made, made']

/-- What one event changes and what the others change make up what all change. -/
theorem joins_cons {k : Keeper} {x x' : Disk} (change : SameChange d (k.handle d e).disk d' x)
    (joins : k.Joins d es x x')
    (agree : ∀ e' ∈ es, ∀ q, (k.handle d e).disk.at? q ≠ d.at? q →
      (k.handle d e').disk.at? q ≠ d.at? q → (k.handle d e).disk.at? q = (k.handle d e').disk.at? q) :
    k.Joins d (e :: es) d' x' := by
  intro q
  obtain ⟨kept, changed⟩ := joins q
  have first := change q
  refine ⟨fun none => ?_, List.forall_mem_cons.2 ⟨fun here => ?_, changed⟩⟩
  · rw [List.forall_mem_cons] at none
    rw [if_pos none.1] at first
    exact (kept none.2).trans first
  · rw [if_neg here] at first
    by_cases none : ∀ e' ∈ es, (k.handle d e').disk.at? q = d.at? q
    · exact (kept none).trans first
    · obtain ⟨e', none⟩ := Classical.not_forall.1 none
      obtain ⟨he', again⟩ := Classical.not_imp.1 none
      exact (changed e' he' again).trans (agree e' he' q here again).symm

theorem dispatchAll_joins (local_ : t.keeper.formatter.Local) (tree : d.IsTree)
    (independent : t.keeper.settings.Independent d es) (spread : Spread ps d d')
    (clear : ∀ e ∈ es, t.keeper.settings.Clear d ps e) :
    (t.dispatchAll d' es).reports =
        (t.keeper.reached d es).map (fun e => ⟨e, (t.keeper.handle d e).result⟩) ∧
      t.keeper.Joins d (t.keeper.reached d es) d' (t.dispatchAll d' es).disk := by
  -- All is compared with `d`, from which `d'` has come by the events before; their stories are at
  -- `ps`.
  induction es generalizing ps d' with
  | nil => exact ⟨rfl, fun q => ⟨fun _ => rfl, by simp [Keeper.reached]⟩⟩
  | cons e es ih =>
      obtain ⟨components, stories, apart⟩ := independent
      rw [List.pairwise_cons] at apart
      rw [List.forall_mem_cons] at components stories clear
      obtain ⟨result, change⟩ :=
        handle_congr local_ tree spread components.1 stories.1 clear.1
      have place : t.keeper.settings.storyPlace d' e = t.keeper.settings.storyPlace d e := by
        rw [Settings.storyPlace, destination, spread.here, Settings.storyPlace, destination]
      have steady' : d'.Steady (t.keeper.settings.storyOf e.path) := by
        obtain ⟨front, base, names, n, l⟩ := stories.1
        exact ⟨front, base, names, n, l.mono spread.here spread.directories⟩
      have now := spread.trans (handle_spread (e := e) local_ spread.tree steady')
      rw [place] at now
      have same : t.keeper.breaksOff d' e = t.keeper.breaksOff d e :=
        congrArg Failure.isBrokenOff result
      cases broken : t.keeper.breaksOff d e with
      | true =>
          have alone : t.keeper.Joins d [] (t.keeper.handle d' e).disk
            (t.keeper.handle d' e).disk := fun q => ⟨fun _ => rfl, by simp⟩
          rw [Session.dispatchAll_of_breaksOff (same.trans broken), Keeper.reached, broken,
            if_pos rfl]
          exact ⟨by simp [Session.dispatch, result], joins_cons change alone (by simp)⟩
      | false =>
          obtain ⟨reports, joins⟩ := ih ⟨components.2, stories.2, apart.2⟩ now
            fun e' he' => (apart.1 e' he').clear_cons (clear.2 e' he')
          obtain ⟨disk, all⟩ := Session.dispatchAll_cons (same.trans broken) es
          rw [disk, all, Keeper.reached, broken, if_neg Bool.false_ne_true]
          refine ⟨by rw [result, reports, List.map_cons], joins_cons change joins ?_⟩
          intro e' member q here again
          have he' := reached_prefix.subset member
          exact same_of_both local_ tree stories.1 (stories.2 e' he') (apart.1 e' he') here again

theorem Settings.Independent.perm (h : s.Independent d es) (perm : es'.Perm es) :
    s.Independent d es' where
  components e he := h.components e (perm.mem_iff.1 he)
  stories e he := h.stories e (perm.mem_iff.1 he)
  apart := (perm.pairwise_iff Settings.Apart.symm).2 h.apart

theorem joins_unique {k : Keeper} {x x' : Disk} (h : k.Joins d es d x)
    (h' : k.Joins d es' d x') (perm : es'.Perm es) (q : Place) : x'.at? q = x.at? q := by
  by_cases none : ∀ e ∈ es, (k.handle d e).disk.at? q = d.at? q
  · rw [(h q).1 none, (h' q).1 fun e he => none e (perm.mem_iff.1 he)]
  · obtain ⟨e, none⟩ := Classical.not_forall.1 none
    obtain ⟨he, changed⟩ := Classical.not_imp.1 none
    rw [(h q).2 e he changed, (h' q).2 e (perm.mem_iff.2 he) changed]

end

/-! ## Straight paths -/

namespace Path.Straight

variable {d : Disk} {p q : Path}

theorem exists_names (h : p.Straight) :
    ∃ names n, p.parts = .root :: (names ++ [n]).map .name := by
  obtain ⟨absolute, onward, named⟩ := h
  obtain ⟨n, named⟩ := Option.isSome_iff_exists.1 named
  obtain ⟨rest, parts⟩ := List.head?_eq_some_iff.1 (isAbsolute_iff.1 absolute)
  obtain ⟨all, rfl⟩ : ∃ all : List String, rest = all.map .name := Disk.exists_names fun x hx => by
    have first := of_mem_tail (p := p) (by rw [parts]; exact hx)
    cases x with
    | root => exact absurd rfl first.1
    | here => exact absurd rfl first.2
    | up => exact absurd (by rw [parts]; exact List.mem_cons_of_mem _ hx) onward
    | name n => exact ⟨n, rfl⟩
  have last := fileName?_eq_some_iff.1 named
  cases end_ : all.getLast? with
  | none =>
      rw [parts, List.getLast?_eq_none_iff.1 end_] at last
      cases last
  | some m =>
      obtain ⟨names, rfl⟩ := List.getLast?_eq_some_iff.1 end_
      exact ⟨names, m, parts⟩

theorem steady (h : p.Straight) (d : Disk) : d.Steady p := by
  obtain ⟨names, n, parts⟩ := h.exists_names
  exact ⟨[.root], [], names, n, parts, rfl, rfl⟩

theorem destination_prefix_iff (hp : p.Straight) (hq : q.Straight) (d : Disk) :
    d.destination p <+: d.destination q ↔ p.parts <+: q.parts := by
  obtain ⟨names, n, parts⟩ := hp.exists_names
  obtain ⟨names', n', parts'⟩ := hq.exists_names
  rw [destination, destination, parts, parts', reach, reach, reach_names, reach_names,
    List.nil_append, List.nil_append, List.prefix_cons_inj]
  constructor
  · exact fun h => h.map _
  · rintro ⟨more, whole⟩
    obtain ⟨front, back, split, mapped, -⟩ := List.map_eq_append_iff.1 whole.symm
    rw [split, List.map_inj_right (fun _ _ => PathPart.name.inj) |>.1 mapped]
    exact List.prefix_append _ _

theorem destination_eq_iff (hp : p.Straight) (hq : q.Straight) (d : Disk) :
    d.destination p = d.destination q ↔ p.parts = q.parts := by
  obtain ⟨names, n, parts⟩ := hp.exists_names
  obtain ⟨names', n', parts'⟩ := hq.exists_names
  rw [destination, destination, parts, parts', reach, reach, reach_names, reach_names,
    List.nil_append, List.nil_append, List.cons_inj_right,
    List.map_inj_right fun _ _ => PathPart.name.inj]

end Path.Straight

section

variable {s : Settings} {d : Disk} {p q : Path} {es : List ComponentEvent}

theorem prefix_join (nonempty : p.parts ≠ []) (relative : q.isAbsolute = false) :
    p.parts <+: (p.join q).parts := by
  rw [Path.parts_join (Path.text_ne_empty nonempty) relative]
  exact List.prefix_append _ _

theorem relative_parent (relative : p.isAbsolute = false) :
    ((p.parent?).getD ⟨""⟩).isAbsolute = false := by
  cases parent : p.parent? with
  | none => rfl
  | some outer =>
      rw [← Bool.not_eq_true, Path.isAbsolute_iff] at relative ⊢
      rw [Option.getD_some, Path.parts_parent? parent]
      intro root
      obtain ⟨rest, parts⟩ := List.head?_eq_some_iff.1 root
      obtain ⟨more, whole⟩ := List.dropLast_prefix p.parts
      rw [← whole, parts] at relative
      exact relative rfl

theorem relative_located (below : s.componentsRoot.parts ≠ []) {n : String}
    (named : p.fileName? = some n) :
    ((p.from? s.componentsRoot).getD ⟨(p.fileName?).getD ""⟩).isAbsolute = false := by
  cases inside : p.from? s.componentsRoot with
  | none =>
      have last := List.mem_of_getLast? (Path.fileName?_eq_some_iff.1 named)
      rw [named]
      exact (Path.isName_of_mem_parts last).relative
  | some r =>
      have whole := Path.parts_from? inside
      rw [Option.getD_some, ← Bool.not_eq_true, Path.isAbsolute_iff]
      intro root
      have later : .root ∈ p.parts.tail := by
        rw [whole, List.tail_append_of_ne_nil below]
        exact List.mem_append_right _ (List.mem_of_mem_head? root)
      exact (Path.of_mem_tail later).1 rfl

theorem relative_storyName (r : Path) {ending : String} (dotted : ending.toList.head? ≠ some '/') :
    (Path.mk (String.ofList (storyName r) ++ ending)).isAbsolute = false := by
  rw [Path.isAbsolute, beq_eq_false_iff_ne]
  simp only [String.toList_append, String.toList_ofList]
  cases named : r.fileName? with
  | none =>
      have empty : storyName r = [] := by
        unfold storyName Path.fileStem?
        rw [named]
        rfl
      rwa [empty]
  | some n =>
      obtain ⟨nonempty, noSlash⟩ := storyName_of_fileName named
      cases name : storyName r with
      | nil => exact absurd name nonempty
      | cons c rest =>
          rw [name] at noSlash
          have := noSlash c List.mem_cons_self
          simpa using this

theorem ofList_storyName (r : Path) :
    (if Identity.isIndex ((r.fileStem?).getD "").toList then "index"
      else String.ofList ((r.fileStem?).getD "").toList) = String.ofList (storyName r) := by
  rw [storyName]
  generalize ((r.fileStem?).getD "").toList = stem
  by_cases index : Identity.isIndex stem = true
  · simp only [index, if_true, String.ofList_toList]
  · simp only [index, Bool.false_eq_true, if_false]

theorem storyOf_eq (s : Settings) (p : Path) : s.storyOf p =
    (s.storiesRoot.join
      ((((p.from? s.componentsRoot).getD ⟨(p.fileName?).getD ""⟩).parent?).getD ⟨""⟩)).join
        ⟨String.ofList (storyName ((p.from? s.componentsRoot).getD ⟨(p.fileName?).getD ""⟩)) ++
          s.storyEnding⟩ := by
  rw [Settings.storyOf, Identity.artifactPath, ← ofList_storyName]

theorem under_storiesRoot (handled : s.handles p = true) (below : s.componentsRoot.parts ≠ [])
    (dotted : s.storyEnding.toList.head? ≠ some '/') :
    s.storiesRoot.parts <+: (s.storyOf p).parts := by
  obtain ⟨⟨n, named⟩, outside⟩ := handles_cases handled
  have rooted : s.storiesRoot.parts ≠ [] := fun none => outside (none ▸ List.nil_prefix)
  rw [storyOf_eq]
  have folder := prefix_join rooted (relative_parent (relative_located below named))
  refine folder.trans (prefix_join (fun none => rooted ?_) (relative_storyName _ dotted))
  rw [none] at folder
  exact List.prefix_nil.1 folder

def Settings.StoriesApart (s : Settings) (p q : Path) : Prop :=
  ¬ (s.storyOf p).parts <+: (s.storyOf q).parts ∧ ¬ (s.storyOf q).parts <+: (s.storyOf p).parts

instance (s : Settings) (p q : Path) : Decidable (s.StoriesApart p q) :=
  inferInstanceAs (Decidable (_ ∧ _))

theorem independent_of_straight (below : s.componentsRoot.parts ≠ [])
    (dotted : s.storyEnding.toList.head? ≠ some '/')
    (straight : ∀ e ∈ es, s.handles e.path = true ∧ e.path.Straight ∧ (s.storyOf e.path).Straight)
    (apart : es.Pairwise fun e e' => s.StoriesApart e.path e'.path) : s.Independent d es where
  components e he := (straight e he).2.1.steady d
  stories e he := (straight e he).2.2.steady d
  apart := by
    have other {e e' : ComponentEvent} (he : e ∈ es) (he' : e' ∈ es) :
        d.destination e.path ≠ s.storyPlace d e' := by
      obtain ⟨handled, here, -⟩ := straight e he
      obtain ⟨handled', -, there⟩ := straight e' he'
      intro same
      rw [Settings.storyPlace, here.destination_eq_iff there] at same
      have outside := (handles_cases handled).2
      rw [same] at outside
      exact outside (under_storiesRoot handled' below dotted)
    refine apart.imp_of_mem fun {e e'} he he' lexical => ?_
    have here := (straight e he).2.2
    have there := (straight e' he').2.2
    refine ⟨?_, ?_, other he he', other he' he⟩
    · rw [Settings.storyPlace, Settings.storyPlace, here.destination_prefix_iff there]
      exact lexical.1
    · rw [Settings.storyPlace, Settings.storyPlace, there.destination_prefix_iff here]
      exact lexical.2

end

/-! ## Sessions -/

section

variable {t : Session} {d : Disk} {es : List ComponentEvent}

theorem syncAll_of_scan {found : Scanned} (scan : t.scanner.scan d = .ok found) :
    ∃ done, t.syncAll d = .ok done ∧
      done.disk = (t.dispatchAll d (found.components.map (⟨.added, ·⟩))).disk ∧
      done.reports = (t.dispatchAll d (found.components.map (⟨.added, ·⟩))).reports := by
  unfold Session.syncAll
  rw [scan]
  exact ⟨_, rfl, rfl, rfl⟩

/-- Events that have nothing to do with each other do not interfere: in any order, each comes out
as it would alone, up to one at which the program breaks off, and the disk ends up with what each
changes alone. A sync handles the scanned components in the order of their paths, and reports on
each unless the program breaks off. It never does if the default story is not `meta`. For straight
paths it is enough that no story lies at or above another one. -/
theorem independent_events (t : Session) (d : Disk) (tree : d.IsTree)
    (local_ : t.keeper.formatter.Local) :
    (∀ es, t.keeper.settings.Independent d es → ∀ es', es'.Perm es →
      ((t.dispatchAll d es').reports =
          (t.keeper.reached d es').map (fun e => ⟨e, (t.keeper.handle d e).result⟩) ∧
        t.keeper.Joins d (t.keeper.reached d es') d (t.dispatchAll d es').disk) ∧
      ((∀ e ∈ es, t.keeper.breaksOff d e = false) →
        (t.dispatchAll d es').reports = es'.map (fun e => ⟨e, (t.keeper.handle d e).result⟩) ∧
          t.keeper.Joins d es d (t.dispatchAll d es').disk ∧
          ∀ q, (t.dispatchAll d es').disk.at? q = (t.dispatchAll d es).disk.at? q)) ∧
      (∀ found, t.scanner.scan d = .ok found → ∃ done, t.syncAll d = .ok done ∧
        found.components.Pairwise (fun p q => p.le q = true) ∧
        (done.isBrokenOff = false →
          done.reports.map (·.event) = found.components.map (⟨.added, ·⟩)) ∧
        (t.keeper.settings.Independent d (found.components.map (⟨.added, ·⟩)) →
          (∀ p ∈ found.components, t.keeper.breaksOff d ⟨.added, p⟩ = false) →
          done.reports = found.components.map
            (fun p => ⟨⟨.added, p⟩, (t.keeper.handle d ⟨.added, p⟩).result⟩)) ∧
        (t.keeper.settings.defaultStory ≠ metaName → done.isBrokenOff = false)) ∧
      (t.keeper.settings.defaultStory ≠ metaName → ∀ e, t.keeper.breaksOff d e = false) ∧
      (t.keeper.settings.componentsRoot.parts ≠ [] →
        t.keeper.settings.storyEnding.toList.head? ≠ some '/' → ∀ es : List ComponentEvent,
          (∀ e ∈ es, t.keeper.settings.handles e.path = true ∧ e.path.Straight ∧
            (t.keeper.settings.storyOf e.path).Straight) →
          (es.Pairwise fun e e' => t.keeper.settings.StoriesApart e.path e'.path) →
          t.keeper.settings.Independent d es) := by
  have run {es : List ComponentEvent} (independent : t.keeper.settings.Independent d es) :=
    dispatchAll_joins local_ tree independent (Spread.refl tree) (by simp [Settings.Clear])
  have whole {es : List ComponentEvent} (independent : t.keeper.settings.Independent d es)
      (onward : ∀ e ∈ es, t.keeper.breaksOff d e = false) := by
    have all := run independent
    rwa [reached_eq onward] at all
  refine ⟨fun es independent es' perm => ⟨run (independent.perm perm), fun onward => ?_⟩,
    fun found scan => ?_, fun named => breaksOff_eq_false named d,
    fun below dotted es straight apart => independent_of_straight below dotted straight apart⟩
  · obtain ⟨reports, all⟩ := whole independent onward
    obtain ⟨reports', all'⟩ := whole (independent.perm perm) fun e he => onward e (perm.mem_iff.1 he)
    refine ⟨reports', fun q => ?_, joins_unique all all' perm⟩
    rw [joins_unique all all' perm q]
    exact all q
  · obtain ⟨done, synced, -, reports⟩ := syncAll_of_scan scan
    obtain ⟨-, -, listed⟩ := scan_components_iff.1 ⟨found, scan, rfl⟩
    have broken : done.isBrokenOff =
        (t.dispatchAll d (found.components.map (⟨.added, ·⟩))).isBrokenOff := by
      rw [Progress.isBrokenOff, reports, Progress.isBrokenOff]
    refine ⟨done, synced, listed ▸ listing_sorted _ _, fun onward => ?_,
      fun independent onward => ?_, fun named => ?_⟩
    · rw [reports]
      exact Session.dispatchAll_events (broken.symm.trans onward)
    · rw [reports, (whole independent (List.forall_mem_map.2 onward)).1, List.map_map]
      rfl
    · rw [broken]
      exact Session.isBrokenOff_dispatchAll fun d e _ => breaksOff_eq_false named d e

def buttonAndCard : List ComponentEvent :=
  [⟨.deleted, ⟨"/p/src/components/Button.tsx"⟩⟩, ⟨.added, ⟨"/p/src/components/Card.tsx"⟩⟩]

theorem independent_events_of_two :
    let story := ["p", "src", "stories", "Button.stories.tsx"]
    withButton.IsTree ∧ standardSession.keeper.formatter.Local ∧
      standardSession.keeper.settings.Independent withButton buttonAndCard ∧
      (standardSession.dispatchAll withButton buttonAndCard.reverse).reports =
        buttonAndCard.reverse.map
          (fun e => ⟨e, (standardSession.keeper.handle withButton e).result⟩) ∧
      (standardSession.dispatchAll withButton buttonAndCard.reverse).disk.at? story = none := by
  have tree : withButton.IsTree := isTree_of_entries (by decide +kernel)
  have local_ : standardSession.keeper.formatter.Local := Formatter.local_none
  obtain ⟨alone, -, onward, straight⟩ := independent_events standardSession withButton tree local_
  have independent := straight (by decide +kernel) (by decide +kernel) buttonAndCard
    (by decide +kernel) (by decide +kernel)
  obtain ⟨reports, joins, -⟩ := (alone _ independent _ (List.reverse_perm _)).2 fun e _ =>
    onward (by decide) e
  refine ⟨tree, local_, independent, reports, ?_⟩
  rw [(joins _).2 ⟨.deleted, ⟨"/p/src/components/Button.tsx"⟩⟩ List.mem_cons_self (by decide +kernel)]
  decide +kernel

/-- Whether two events of components whose stories are apart come out otherwise than alone. -/
def Session.Interferes (t : Session) (d : Disk) (e e' : ComponentEvent) : Prop :=
  d.IsTree ∧ t.keeper.settings.handles e.path = true ∧ t.keeper.settings.handles e'.path = true ∧
    t.keeper.settings.StoriesApart e.path e'.path ∧
    (t.dispatchAll d [e, e']).reports ≠ [e, e'].map (fun x => ⟨x, (t.keeper.handle d x).result⟩)

def plainSession (s : Settings) : Session := ⟨⟨s, .none, .real⟩, ⟨⟨s, []⟩, true, Ignore.noUserRules⟩⟩

def plainPrinter : Cli.Printer := ⟨false, ⟨"/p"⟩⟩

def storyAsComponent : Disk :=
  { entries :=
      [(["src"], .directory), (["src", "stories"], .directory),
        (["src", "stories", "Card.stories.tsx"], .file (.text "")),
        (["src", "stories", "Card.stories.stories.tsx"], .file (.text ""))]
    here := [] }

def withFolder : Disk :=
  { withButton with entries := (["p", "src", "stories", "x"], .directory) :: withButton.entries }

/-- Where the default story is called `meta`, it shares its literal with the table. -/
def calledMeta : Settings := { Settings.standard with defaultStory := metaName, argTypes := false }

def accentedBody : Tsx.Tree :=
  .node .interfaceBody (some .body) 28 31
    [.node (.token "\x7b") none 28 29 [],
      .node .propertySignature none 29 30 [.node .propertyIdentifier (some .name) 29 30 []],
      .node (.token "\x7d") none 30 31 []]

def accented : Tsx.Syntax where
  source := "export interface ButtonProps\x7bé\x7d".toList
  root := .node .program none 0 31
    [.node .exportStatement none 0 31
      [.node (.token "export") none 0 6 [],
        .node .interfaceDeclaration (some .declaration) 7 31
          [.node (.token "interface") none 7 16 [], .node .typeIdentifier (some .name) 17 28 [],
            accentedBody]]]

def tornStory : Disk :=
  { entries :=
      [(["src"], .directory), (["src", "components"], .directory),
        (["src", "components", "Button.tsx"], .file (.text (String.ofList accented.source))),
        (["src", "stories"], .directory),
        (["src", "stories", "Button.stories.tsx"],
          .file (.text "const meta = \x7b\n  argTypes: \x7b\x7d,               \n\x7d;\n"))]
    here := [] }

theorem ofFile_accented : FileItem.ofFile accented =
    [.type "ButtonProps" (.interface [.mk "é" Lower.anyType false none] []) true] := by
  have members : Lower.members accented accentedBody = [.mk "é" Lower.anyType false none] := by
    rw [Lower.members_eq]
    rfl
  rw [← members]
  rfl

theorem breaksOff_tornStory : (plainSession calledMeta).keeper.breaksOff tornStory
    ⟨.changed, ⟨"src/components/Button.tsx"⟩⟩ = true := by
  have parsed : Tsx.parse accented.source = accented := Tsx.parse_eq (by decide +kernel)
  have analysis : (Analysis.ofFile tornStory ⟨"src/components/Button.tsx"⟩).1 = Analysis.ofItems
      [.type "ButtonProps" (.interface [.mk "é" Lower.anyType false none] []) true] := by
    rw [← ofFile_accented, ← parsed]
    rfl
  have there : tornStory.exists? (calledMeta.storyOf ⟨"src/components/Button.tsx"⟩) = true := by
    decide +kernel
  rw [Keeper.breaksOff, handle_result]
  change Failure.isBrokenOff
    (Keeper.carryOut _ _ (calledMeta.decide tornStory _).decision).result = true
  -- The types of a file are lowered by well-founded recursion, which the kernel does not evaluate.
  simp only [Settings.decide, there, if_true, Settings.decideUpdate, Settings.describe, analysis]
  decide +kernel

/-- Stories that are apart by their paths are not enough: a story can be a component itself, a path
can turn back from a directory that the other event makes, two paths can lead to one place, and the
program can break off at one event before it comes to the other. -/
theorem stories_apart_interfere :
    (plainSession .standard).Interferes storyAsComponent
        ⟨.deleted, ⟨"./src/components/Card.tsx"⟩⟩ ⟨.changed, ⟨"src/stories/Card.stories.tsx"⟩⟩ ∧
      (plainSession turningBack).Interferes withStory
        ⟨.added, ⟨"/p/src/components/Card.tsx"⟩⟩ ⟨.deleted, ⟨"/p/src/components/Button.tsx"⟩⟩ ∧
      standardSession.Interferes withFolder
        ⟨.deleted, ⟨"/p/src/components/Button.tsx"⟩⟩
        ⟨.deleted, ⟨"/p/src/components/x/../Button.tsx"⟩⟩ ∧
      (plainSession calledMeta).Interferes tornStory
        ⟨.changed, ⟨"src/components/Button.tsx"⟩⟩ ⟨.deleted, ⟨"src/components/Card.tsx"⟩⟩ := by
  refine ⟨⟨isTree_of_entries (by decide +kernel), by decide +kernel, by decide +kernel,
      by decide +kernel, fun same => ?_⟩,
    ⟨isTree_of_entries (by decide +kernel), by decide +kernel, by decide +kernel,
      by decide +kernel, fun same => ?_⟩,
    ⟨isTree_of_entries (by decide +kernel), by decide +kernel, by decide +kernel,
      by decide +kernel, fun same => ?_⟩,
    ⟨isTree_of_entries (by decide +kernel), by decide +kernel, by decide +kernel,
      by decide +kernel, fun same => ?_⟩⟩
  · exact absurd (congrArg (List.map plainPrinter.report) same) (by decide +kernel)
  · exact absurd (congrArg (List.map plainPrinter.report) same) (by decide +kernel)
  · exact absurd (congrArg (List.map plainPrinter.report) same) (by decide +kernel)
  · rw [Session.dispatchAll_of_breaksOff breaksOff_tornStory] at same
    exact absurd (congrArg List.length same) (by decide)

end

end PropStories
