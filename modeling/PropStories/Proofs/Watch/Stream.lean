import PropStories.Cli.Run
import PropStories.Proofs.Story.Pairing
import PropStories.Proofs.Watch.Known

/-!
# The events of a watched project

Whatever is touched, and however the disk changes in between, the events of each component take
turns: it is added while it is unknown, and changed or deleted only while it is known. All of them
are events that a keeper handles.
-/

namespace PropStories

open KnownComponents

/-! ## One touched path -/

section

variable {s : Session} {d : Disk} {k : KnownComponents} {p q : Path} {n : Noticed}

inductive Notices (s : Session) (d : Disk) (k : KnownComponents) (p : Path) : Noticed → Prop where
  | scanned {found : Scanned} (directory : d.isDirectory p = true)
      (scan : s.scanner.scanDirectory d p = .ok found) :
      Notices s d k p ⟨(Session.noticeNew k found.components).1, found.log,
        (Session.noticeNew k found.components).2⟩
  | classified (other : d.isDirectory p = false) (accepted : s.scanner.filter.accepts p = true) :
      Notices s d k p ⟨(k.classify p (d.isFile p)).1, [],
        (k.classify p (d.isFile p)).2.toList.map (⟨·, p⟩)⟩
  | forgotten (other : d.isDirectory p = false) (refused : s.scanner.filter.accepts p = false)
      (gone : d.exists? p = false) :
      Notices s d k p ⟨(k.forgetBelow p).1, [], (k.forgetBelow p).2.map (⟨.deleted, ·⟩)⟩
  | nothing (other : d.isDirectory p = false) (refused : s.scanner.filter.accepts p = false)
      (there : d.exists? p = true) : Notices s d k p ⟨k, [], []⟩

theorem notice_notices (h : s.notice d k p = .ok n) : Notices s d k p n := by
  unfold Session.notice at h
  split at h
  next directory =>
    cases scan : s.scanner.scanDirectory d p with
    | error x =>
        rw [scan] at h
        cases h
    | ok found =>
        rw [scan] at h
        cases h
        exact .scanned directory scan
  next other =>
    have other : d.isDirectory p = false := by simpa using other
    split at h
    next accepted =>
      cases h
      exact .classified other accepted
    next refused =>
      have refused : s.scanner.filter.accepts p = false := by simpa using refused
      split at h
      next gone =>
        cases h
        exact .forgotten other refused (by simpa using gone)
      next there =>
        cases h
        exact .nothing other refused (by simpa using there)

theorem noticeNew_records (k : KnownComponents) (ps : List Path) :
    Records k (Session.noticeNew k ps).2 (Session.noticeNew k ps).1 := by
  induction ps generalizing k with
  | nil => exact .nil k
  | cons p ps ih =>
      unfold Session.noticeNew
      split
      next => exact ih k
      next new => exact .cons (by simpa [Fits] using new) (ih (k.insert p))

theorem mem_noticeNew {ps : List Path} {e : ComponentEvent}
    (h : e ∈ (Session.noticeNew k ps).2) : e.kind = .added ∧ e.path ∈ ps := by
  induction ps generalizing k with
  | nil => cases h
  | cons p ps ih =>
      unfold Session.noticeNew at h
      split at h
      next =>
        obtain ⟨kind, member⟩ := ih h
        exact ⟨kind, List.mem_cons_of_mem p member⟩
      next =>
        obtain rfl | later := List.mem_cons.1 h
        · exact ⟨rfl, List.mem_cons_self⟩
        · obtain ⟨kind, member⟩ := ih later
          exact ⟨kind, List.mem_cons_of_mem p member⟩

theorem classify_records (k : KnownComponents) (p : Path) (isThere : Bool) :
    Records k ((k.classify p isThere).2.toList.map (⟨·, p⟩)) (k.classify p isThere).1 := by
  have one {e : ComponentEvent} (fits : k.Fits e) : Records k [e] (k.record e) :=
    .cons fits (.nil _)
  unfold classify
  cases isThere with
  | true =>
      cases known : k.contains p with
      | true => exact one (e := ⟨.changed, p⟩) (by simp [Fits, known])
      | false => exact one (e := ⟨.added, p⟩) (by simp [Fits, known])
  | false =>
      cases known : k.contains p with
      | true => exact one (e := ⟨.deleted, p⟩) (by simp [Fits, known])
      | false => exact .nil k

theorem deleted_records {gone : List Path} (known : ∀ q ∈ gone, k.contains q = true)
    (apart : gone.Pairwise fun p q => p.parts ≠ q.parts) :
    Records k (gone.map (⟨.deleted, ·⟩)) ⟨k.paths.filter fun q => !gone.any q.same⟩ := by
  induction gone generalizing k with
  | nil =>
      rw [show k.paths.filter (fun q => !([] : List Path).any q.same) = k.paths by simp]
      exact .nil k
  | cons g gone ih =>
      obtain ⟨others, apart⟩ := List.pairwise_cons.1 apart
      have left (q : Path) (hq : q ∈ gone) : (k.erase g).contains q = true :=
        contains_erase.2 ⟨known q (List.mem_cons_of_mem g hq), others q hq⟩
      refine .cons (by simp [Fits, known g List.mem_cons_self]) ?_
      change Records (k.erase g) _ _
      simpa only [erase, List.filter_filter, List.any_cons, Bool.not_or, Bool.and_comm]
        using ih left apart

theorem forgetBelow_records (set : k.IsSet) (dir : Path) :
    Records k ((k.forgetBelow dir).2.map (⟨.deleted, ·⟩)) (k.forgetBelow dir).1 := by
  have gone : ∀ q ∈ (k.forgetBelow dir).2, k.contains q = true := fun q hq =>
    contains_iff.2 ⟨q, (List.mem_filter.1 hq).1, rfl⟩
  have run := deleted_records gone (List.Pairwise.filter _ set)
  have same : k.paths.filter (fun q => !(k.forgetBelow dir).2.any q.same) =
      k.paths.filter fun q => !isBelow dir q := by
    refine List.filter_congr fun q hq => congrArg _ ?_
    rw [Bool.eq_iff_iff, List.any_eq_true]
    constructor
    · rintro ⟨r, hr, equal⟩
      have below := isBelow_iff.1 (List.mem_filter.1 hr).2
      rw [← Path.same_iff.1 equal] at below
      exact isBelow_iff.2 below
    · intro below
      exact ⟨q, List.mem_filter.2 ⟨hq, below⟩, Path.same_iff.2 rfl⟩
  rw [same] at run
  exact run

theorem notice_records (set : k.IsSet) (h : s.notice d k p = .ok n) :
    Records k n.events n.known := by
  cases notice_notices h with
  | scanned => exact noticeNew_records k _
  | classified => exact classify_records k p _
  | forgotten => exact forgetBelow_records set p
  | nothing => exact .nil k

theorem mem_scanDirectory {found : Scanned} (h : s.scanner.scanDirectory d p = .ok found)
    (member : q ∈ found.components) : s.scanner.filter.accepts q = true := by
  unfold Scanner.scanDirectory at h
  cases files : s.scanner.files d p with
  | error x =>
      rw [files] at h
      cases h
  | ok all =>
      rw [files] at h
      cases h
      exact (List.mem_filter.1 (List.mem_mergeSort.1 member)).2

theorem notice_accepts (accepted : ∀ q ∈ k.paths, s.scanner.filter.accepts q = true)
    (h : s.notice d k p = .ok n) : ∀ e ∈ n.events, s.scanner.filter.accepts e.path = true := by
  intro e he
  cases notice_notices h with
  | scanned directory scan => exact mem_scanDirectory scan (mem_noticeNew he).2
  | classified other here =>
      obtain ⟨kind, -, rfl⟩ := List.mem_map.1 he
      exact here
  | forgotten =>
      obtain ⟨q, hq, rfl⟩ := List.mem_map.1 he
      exact accepted q (List.mem_filter.1 hq).1
  | nothing => cases he

end

/-! ## Runs -/

structure Touch where
  disk : Disk
  path : Path

namespace Session

def touch (s : Session) (k : KnownComponents) (t : Touch) :
    KnownComponents × List ComponentEvent :=
  match s.notice t.disk k t.path with
  | .ok n => (n.known, n.events)
  | .error _ => (k, [])

def watch (s : Session) (k : KnownComponents) : List Touch → KnownComponents × List ComponentEvent
  | [] => (k, [])
  | t :: ts =>
      let now := s.touch k t
      let later := s.watch now.1 ts
      (later.1, now.2 ++ later.2)

end Session

section

variable {s : Session} {k : KnownComponents}

theorem touch_records (set : k.IsSet) (t : Touch) :
    Records k (s.touch k t).2 (s.touch k t).1 := by
  unfold Session.touch
  split
  next n h => exact notice_records set h
  next => exact .nil k

theorem touch_accepts (accepted : ∀ q ∈ k.paths, s.scanner.filter.accepts q = true) (t : Touch) :
    ∀ e ∈ (s.touch k t).2, s.scanner.filter.accepts e.path = true := by
  unfold Session.touch
  split
  next n h => exact notice_accepts accepted h
  next => simp

theorem watch_records (set : k.IsSet) (ts : List Touch) :
    Records k (s.watch k ts).2 (s.watch k ts).1 := by
  induction ts generalizing k with
  | nil => exact .nil k
  | cons t ts ih =>
      have now := touch_records (s := s) set t
      exact now.append (ih (now.isSet set))

theorem watch_accepts (set : k.IsSet)
    (accepted : ∀ q ∈ k.paths, s.scanner.filter.accepts q = true) (ts : List Touch) :
    ∀ e ∈ (s.watch k ts).2, s.scanner.filter.accepts e.path = true := by
  induction ts generalizing k with
  | nil => simp [Session.watch]
  | cons t ts ih =>
      intro e he
      have now := touch_accepts accepted t
      have run := touch_records (s := s) set t
      obtain first | later := List.mem_append.1 he
      · exact now e first
      · refine ih (run.isSet set) (fun q hq => ?_) e later
        obtain old | ⟨e', he', rfl⟩ := run.mem hq
        · exact accepted q old
        · exact now e' he'

theorem watch_append (k : KnownComponents) (ts us : List Touch) :
    s.watch k (ts ++ us) =
      ((s.watch (s.watch k ts).1 us).1, (s.watch k ts).2 ++ (s.watch (s.watch k ts).1 us).2) := by
  induction ts generalizing k with
  | nil => rfl
  | cons t ts ih => simp only [List.cons_append, Session.watch, ih, List.append_assoc]

theorem watch_failed {t : Touch} {x : ScanError} {ts : List Touch}
    (failed : s.notice t.disk (s.watch k ts).1 t.path = .error x) :
    s.watch k (ts ++ [t]) = s.watch k ts := by
  rw [watch_append]
  simp [Session.watch, Session.touch, failed]

theorem touch_known {l : Cli.Watching} {ts : List Touch} (known : l.known = (s.watch k ts).1)
    (session : l.session = s) (d : Disk) (p : Path) :
    (l.touch d p).1.known = (s.watch k (ts ++ [⟨d, p⟩])).1 := by
  rw [watch_append, ← known]
  unfold Cli.Watching.touch Session.watch Session.touch
  rw [session]
  simp only
  cases s.notice d l.known p with
  | error x => rfl
  | ok n => rfl

end

/-! ## Handled events -/

section

variable {programs : Programs} {userRules : Ignore.UserRules} {s : Session} {d : Disk}
  {k : KnownComponents} {e : ComponentEvent}

theorem settings_of_ofConfig {c : ProjectConfig} {mode : WriteMode}
    (made : Session.ofConfig programs userRules d c mode = .ok s) :
    s.scanner.filter.settings = s.keeper.settings := by
  unfold Session.ofConfig ComponentFilter.ofPatterns at made
  cases patterns : c.watch.ignored.mapM fun p => (Pattern.ofText p).mapError fun f =>
      ScanError.invalidPattern p f.message with
  | error x =>
      rw [patterns] at made
      cases made
  | ok ignored =>
      rw [patterns] at made
      cases made
      rfl

theorem decide_ne_ignore {t : Settings} (handled : t.handles e.path = true) :
    (t.decide d e).decision ≠ .ignore := by
  have creation : (t.decideCreation d e.path (t.storyOf e.path)).decision ≠ .ignore := by
    obtain ⟨content, props, made⟩ | ⟨broken, -⟩ := decideCreation_decision (s := t) (d := d)
      e.path (t.storyOf e.path)
    · simp [made]
    · simp [broken]
  have update (isNew : Bool) :
      (t.decideUpdate d isNew e.path (t.storyOf e.path)).decision ≠ .ignore := by
    simp only [Settings.decideUpdate, Settings.revision, Decided.after_decision]
    repeat' split
    all_goals simp
  unfold Settings.decide
  simp only [handled, Bool.not_true, Bool.false_eq_true, if_false]
  cases e.kind with
  | added =>
      simp only
      split
      · rw [Decided.after_decision]
        exact update true
      · rw [Decided.after_decision]
        exact creation
  | changed =>
      simp only
      split
      · rw [Decided.after_decision]
        exact update false
      · rw [Decided.after_decision]
        exact creation
  | deleted =>
      simp only [Settings.decideDeletion, Decided.after_decision]
      split <;> simp

theorem carryOut_ne_ignored {keeper : Keeper} {x : Decision} (acts : x ≠ .ignore) :
    (keeper.carryOut d x).result ≠ .ok .ignored := by
  have stored {path : Path} {content told : String} {props : Nat}
      {outcome : WriteResult → Outcome} (other : ∀ w, outcome w ≠ .ignored) :
      (keeper.store d path content told props outcome).result ≠ .ok .ignored := by
    unfold Keeper.store
    split
    · simp
    · simpa using other _
  have erased (story : Path) : (keeper.erase d story).result ≠ .ok .ignored := by
    unfold Keeper.erase
    split <;> simp
  cases x with
  | ignore => exact absurd rfl acts
  | create story content props => exact stored fun w => by simp
  | revise story content props report => exact stored fun w => by simp
  | delete story => exact erased story
  | keep story => simp [Keeper.carryOut]
  | skip story reason => simp [Keeper.carryOut]
  | nothingToDelete story => simp [Keeper.carryOut]
  | fail x => simp [Keeper.carryOut]
  | breakOff => simp [Keeper.carryOut]

theorem handle_ne_ignored {keeper : Keeper} (handled : keeper.settings.handles e.path = true) :
    (keeper.handle d e).result ≠ .ok .ignored := by
  rw [handle_result]
  exact carryOut_ne_ignored (decide_ne_ignore handled)

/-! ## The stream -/

/-- Whether every event fits what the events before it leave known. -/
def TakesTurns (k : KnownComponents) (es : List ComponentEvent) : Prop :=
  ∀ before e after, es = before ++ e :: after →
    (e.kind = .added ↔ k.knownAfter before e.path = false)

theorem exists_deleted_between {before mid after : List ComponentEvent} {e e' : ComponentEvent}
    (turns : TakesTurns k (before ++ e :: mid ++ e' :: after)) (added : e.kind = .added)
    (again : e'.kind = .added) (same : e.path.same e'.path = true) :
    ∃ x ∈ mid, x.kind = .deleted ∧ x.path.same e'.path = true := by
  have unknown := (turns (before ++ e :: mid) e' after rfl).1 again
  rw [knownAfter, List.reverse_append, List.reverse_cons, List.append_assoc, List.find?_append]
    at unknown
  cases found : mid.reverse.find? (·.path.same e'.path) with
  | none =>
      have first : ([e] ++ before.reverse).find? (·.path.same e'.path) = some e := by
        simp [same]
      rw [found, Option.none_or, first] at unknown
      simp [added] at unknown
  | some x =>
      rw [found] at unknown
      have last : x.path.same e'.path = true := by simpa using List.find?_some found
      exact ⟨x, List.mem_reverse.1 (List.mem_of_find?_eq_some found), by simpa using unknown, last⟩

def Seeded (s : Session) (k : KnownComponents) : Prop :=
  k = .empty ∨ ∃ d log, s.known d = .ok (k, log)

theorem exists_scan_of_known {log : List LogEvent} (known : s.known d = .ok (k, log)) :
    ∃ found, s.scanner.scan d = .ok found ∧ k = .ofList found.components := by
  unfold Session.known at known
  cases scan : s.scanner.scan d with
  | error x =>
      rw [scan] at known
      cases known
  | ok found =>
      rw [scan] at known
      cases known
      exact ⟨found, rfl, rfl⟩

theorem Seeded.isSet (seeded : Seeded s k) : k.IsSet := by
  obtain rfl | ⟨d, log, known⟩ := seeded
  · exact isSet_empty
  · obtain ⟨found, -, rfl⟩ := exists_scan_of_known known
    exact isSet_ofList _

theorem Seeded.accepts (seeded : Seeded s k) :
    ∀ q ∈ k.paths, s.scanner.filter.accepts q = true := by
  obtain rfl | ⟨d, log, known⟩ := seeded
  · simp [KnownComponents.empty]
  · obtain ⟨found, scan, rfl⟩ := exists_scan_of_known known
    intro q hq
    unfold Scanner.scan at scan
    simp only at scan
    split at scan
    · exact mem_scanDirectory scan (mem_of_mem_ofList hq)
    · cases scan

/-- The events of a watched project take turns, and the set of known components keeps up with
them. The loop of the command goes through the same sets; a path that cannot be scanned changes
nothing. All that is known or told of is accepted, so that no event is ignored. -/
theorem watch_takes_turns {c : ProjectConfig} {mode : WriteMode}
    (made : Session.ofConfig programs userRules d c mode = .ok s) (seeded : Seeded s k) (ts : List Touch) :
    (∀ p, (s.watch k ts).1.contains p = k.knownAfter (s.watch k ts).2 p) ∧
      TakesTurns k (s.watch k ts).2 ∧
      (∀ before e mid e' after, (s.watch k ts).2 = before ++ e :: mid ++ e' :: after →
        e.kind = .added → e'.kind = .added → e.path.same e'.path = true →
        ∃ x ∈ mid, x.kind = .deleted ∧ x.path.same e'.path = true) ∧
      (∀ (l : Cli.Watching) d p, l.session = s → l.known = (s.watch k ts).1 →
        (l.touch d p).1.known = (s.watch k (ts ++ [⟨d, p⟩])).1) ∧
      (∀ d p x, s.notice d (s.watch k ts).1 p = .error x →
        s.watch k (ts ++ [⟨d, p⟩]) = s.watch k ts) ∧
      (∀ p ∈ (s.watch k ts).1.paths, s.scanner.filter.accepts p = true) ∧
      ∀ e ∈ (s.watch k ts).2, s.scanner.filter.accepts e.path = true ∧
        ∀ d, (s.keeper.handle d e).result ≠ .ok .ignored := by
  have run := watch_records (s := s) seeded.isSet ts
  have accepted := watch_accepts seeded.isSet seeded.accepts ts
  have turns : TakesTurns k (s.watch k ts).2 := by
    intro before e after whole
    rw [whole] at run
    exact run.fits
  refine ⟨run.contains_eq, turns, fun before e mid e' after whole added again same => ?_,
    fun l d p session known => touch_known known session d p, fun d p x failed => watch_failed failed,
    fun p hp => ?_, fun e he => ⟨accepted e he, fun d => ?_⟩⟩
  · rw [whole] at turns
    exact exists_deleted_between turns added again same
  · obtain old | ⟨e, he, rfl⟩ := run.mem hp
    · exact seeded.accepts p old
    · exact accepted e he
  · have handled := (accepts_cases (accepted e he)).2.1
    rw [settings_of_ofConfig made] at handled
    exact handle_ne_ignored handled

def watchedConfig : ProjectConfig :=
  { ProjectConfig.initial with
    paths := ⟨⟨"/p"⟩, ⟨"src/components"⟩, some ⟨"src/stories"⟩, .standard⟩
    watch := ⟨[".tsx", ".jsx"], [], 300, true⟩
    format := ⟨false, []⟩ }

def watchedSession : Session :=
  let settings := watchedConfig.settings ⟨[], []⟩
  ⟨⟨settings, .none, .real⟩, ⟨⟨settings, []⟩, true, Ignore.noUserRules⟩⟩

def withComponent : Disk :=
  { entries :=
      [(["p"], .directory), (["p", "src"], .directory), (["p", "src", "components"], .directory),
        (["p", "src", "components", "Button.tsx"], .file (.text ""))]
    here := [] }

def buttonTouches : List Touch :=
  [⟨withComponent, ⟨"/p/src/components"⟩⟩, ⟨withComponent, ⟨"/p/src/components/Button.tsx"⟩⟩,
    ⟨⟨[], []⟩, ⟨"/p/src/components/Button.tsx"⟩⟩]

theorem watch_takes_turns_of_button :
    Session.ofConfig .none Ignore.noUserRules ⟨[], []⟩ watchedConfig .real = .ok watchedSession ∧
      Seeded watchedSession .empty ∧
      (watchedSession.watch .empty buttonTouches).2.map (·.kind) = [.added, .changed, .deleted] ∧
      TakesTurns .empty (watchedSession.watch .empty buttonTouches).2 ∧
      (watchedSession.watch .empty buttonTouches).1.contains ⟨"/p/src/components/Button.tsx"⟩ =
        false := by
  have made : Session.ofConfig .none Ignore.noUserRules ⟨[], []⟩ watchedConfig .real =
      .ok watchedSession := rfl
  have seeded : Seeded watchedSession .empty := .inl rfl
  obtain ⟨known, turns, -⟩ := watch_takes_turns made seeded buttonTouches
  refine ⟨made, seeded, by decide +kernel, turns, ?_⟩
  rw [known]
  decide +kernel

end

end PropStories
