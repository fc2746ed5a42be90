import PropStories.Proofs.Story.Runs

/-!
# Previews

A preview decides as a real run does and then tells what it would write. It changes nothing and
does not run the formatter.
-/

namespace PropStories

open Disk

/-! ## A preview alone -/

namespace Keeper

section

variable {k : Keeper} {d : Disk} {hs : List Happening}

theorem store_preview (preview : k.mode = .preview) (story : Path) (content told : String)
    (props : Nat) (outcome : WriteResult → Outcome) :
    k.store d story content told props outcome =
      ⟨d, [.info told [("story", story.text), ("props", toString props)]],
        .ok (outcome (.previewed story (some content)))⟩ := by
  simp [store, preview, WriteMode.write, format, WriteResult.applied]

theorem erase_preview (preview : k.mode = .preview) (story : Path) :
    k.erase d story =
      ⟨d, [.info "Story deleted" [("story", story.text)]],
        .ok (.deleted (.previewed story none))⟩ := by
  simp [erase, preview, WriteMode.delete]

/-- A preview of an event, whatever the formatter, leaves the disk as it is. -/
theorem carryOut_preview (s : Settings) (f g : Formatter) (x : Decision) :
    (carryOut ⟨s, f, .preview⟩ d x).disk = d ∧
      carryOut ⟨s, g, .preview⟩ d x = carryOut ⟨s, f, .preview⟩ d x ∧
      ∀ o, (carryOut ⟨s, f, .preview⟩ d x).result = .ok o → o.formatted = [] := by
  cases x with
  | create story content props =>
      rw [carryOut, carryOut, store_preview rfl, store_preview rfl]
      exact ⟨rfl, rfl, fun o h => by cases h; rfl⟩
  | revise story content props report =>
      rw [carryOut, carryOut, store_preview rfl, store_preview rfl]
      exact ⟨rfl, rfl, fun o h => by cases h; rfl⟩
  | delete story =>
      rw [carryOut, carryOut, erase_preview rfl, erase_preview rfl]
      exact ⟨rfl, rfl, fun o h => by cases h; rfl⟩
  | fail x => exact ⟨rfl, rfl, fun o h => by cases h⟩
  | breakOff => exact ⟨rfl, rfl, fun o h => by cases h⟩
  | ignore => exact ⟨rfl, rfl, fun o h => by cases h; rfl⟩
  | keep story => exact ⟨rfl, rfl, fun o h => by cases h; rfl⟩
  | skip story reason => exact ⟨rfl, rfl, fun o h => by cases h; rfl⟩
  | nothingToDelete story => exact ⟨rfl, rfl, fun o h => by cases h; rfl⟩

theorem handle_preview_disk (preview : k.mode = .preview) (d : Disk) (e : ComponentEvent) :
    (k.handle d e).disk = d := by
  obtain ⟨s, f, mode⟩ := k
  cases preview
  rw [handle_disk]
  exact (carryOut_preview s f f _).1

theorem handle_preview_formatter (s : Settings) (f g : Formatter) (d : Disk) (e : ComponentEvent) :
    handle ⟨s, g, .preview⟩ d e = handle ⟨s, f, .preview⟩ d e := by
  simp only [handle, (carryOut_preview s f g _).2.1]

theorem final_preview (preview : k.mode = .preview) (es : List ComponentEvent) :
    k.final d (es.map .event) = d := by
  induction es with
  | nil => rfl
  | cons e es ih => rw [List.map_cons, final, handle_preview_disk preview, ih]

theorem turns_preview (s : Settings) (f g : Formatter) :
    turns ⟨s, g, .preview⟩ d hs = turns ⟨s, f, .preview⟩ d hs := by
  induction hs generalizing d with
  | nil => rfl
  | cons h hs ih =>
      cases h with
      | event e => rw [turns, turns, handle_preview_formatter s f g, ih]
      | edit change => rw [turns, turns, ih]

end

end Keeper

/-! ## A preview beside a real run -/

def Formatter.Stored (f : Formatter) (d : Disk) (story : Path) (content : String)
    (after : Disk) : Prop :=
  ∃ written : Disk, (WriteMode.real.write d story content).1 = written ∧
    written.readText story = .ok content ∧ (f written story).disk = after

inductive Foretold (f : Formatter) (d : Disk) (story : Path) : Outcome → Disk → Outcome → Prop where
  | created {content : String} {props : Nat} {after : Disk}
      (stored : f.Stored d story content after) :
      Foretold f d story (.created (.written story content.utf8ByteSize) props) after
        (.created (.previewed story (some content)) props)
  | reconciled {content : String} {report : ReconcileReport} {after : Disk}
      (stored : f.Stored d story content after) :
      Foretold f d story (.reconciled (.written story content.utf8ByteSize) report) after
        (.reconciled (.previewed story (some content)) report)
  | deleted {after : Disk} (removed : d.removeFile story = .ok after) :
      Foretold f d story (.deleted (.deleted story)) after (.deleted (.previewed story none))
  | unchanged : Foretold f d story (.unchanged story) d (.unchanged story)
  | skipped (reason : SkipReason) :
      Foretold f d story (.skipped story reason) d (.skipped story reason)
  | nothingToDelete : Foretold f d story (.nothingToDelete story) d (.nothingToDelete story)
  | ignored : Foretold f d story .ignored d .ignored

section

variable {s : Settings} {f : Formatter} {d : Disk} {story : Path} {o : Outcome}

theorem Keeper.store_real {content told : String} {props : Nat} {outcome : WriteResult → Outcome}
    (h : (Keeper.store ⟨s, f, .real⟩ d story content told props outcome).result = .ok o) :
    o = outcome (.written story content.utf8ByteSize) ∧
      f.Stored d story content
        (Keeper.store ⟨s, f, .real⟩ d story content told props outcome).disk := by
  have written (w : WriteResult) (h : (WriteMode.real.write d story content).2 = .ok w) :=
    WriteMode.real_write_done h
  unfold store at h ⊢
  unfold Formatter.Stored
  simp only at h ⊢
  generalize WriteMode.real.write d story content = attempt at written h ⊢
  obtain ⟨x, r⟩ := attempt
  cases r with
  | error error => cases h
  | ok w =>
      obtain ⟨rfl, found⟩ := written w rfl
      cases h
      refine ⟨rfl, x, rfl, ?_, Eq.symm (format_applied (k := ⟨s, f, .real⟩) rfl)⟩
      rw [readText, found]
      rfl

theorem Keeper.erase_real (h : (Keeper.erase ⟨s, f, .real⟩ d story).result = .ok o) :
    o = .deleted (.deleted story) ∧
      d.removeFile story = .ok (Keeper.erase ⟨s, f, .real⟩ d story).disk := by
  unfold erase WriteMode.delete at h ⊢
  simp only at h ⊢
  cases removed : d.removeFile story with
  | error x =>
      rw [removed] at h
      cases h
  | ok done =>
      rw [removed] at h
      cases h
      exact ⟨rfl, rfl⟩

def Decision.story? : Decision → Option Path
  | .create story _ _ | .revise story _ _ _ | .keep story | .skip story _ | .delete story
  | .nothingToDelete story => some story
  | .ignore | .fail _ | .breakOff => none

theorem story?_decideUpdate {isNew : Bool} {component story : Path} :
    ∀ about ∈ (s.decideUpdate d isNew component story).decision.story?, about = story := by
  obtain keep | ⟨reason, skip⟩ | ⟨error, fail⟩ | broken | ⟨content, props, report, revise⟩ :=
    decideUpdate_cases (s := s) (d := d) isNew component story rfl
  · simp [keep, Decision.story?]
  · simp [skip, Decision.story?]
  · simp [fail, Decision.story?]
  · simp [broken, Decision.story?]
  · simp [revise, Decision.story?]

theorem story?_decide {e : ComponentEvent} :
    ∀ about ∈ (s.decide d e).decision.story?, about = s.storyOf e.path := by
  cases handled : s.handles e.path with
  | false => simp [decide_of_unhandled handled, Decision.story?]
  | true =>
      by_cases kind : e.kind = .deleted
      · rw [decide_of_deleted handled kind, Settings.decideDeletion]
        split
        · simp [Decision.story?]
        · simp [Decision.story?]
      · cases there : d.exists? (s.storyOf e.path) with
        | true =>
            rw [decide_of_present handled kind there]
            exact story?_decideUpdate
        | false =>
            rw [decide_of_absent handled kind there]
            obtain ⟨content, props, create⟩ | ⟨broken, -⟩ := decideCreation_decision (s := s)
              (d := d) e.path (s.storyOf e.path)
            · simp [create, Decision.story?]
            · simp [broken, Decision.story?]

theorem carryOut_foretold {x : Decision} (about : ∀ p ∈ x.story?, p = story)
    (h : (Keeper.carryOut ⟨s, f, .real⟩ d x).result = .ok o) :
    ∃ o', (Keeper.carryOut ⟨s, f, .preview⟩ d x).result = .ok o' ∧
      Foretold f d story o (Keeper.carryOut ⟨s, f, .real⟩ d x).disk o' := by
  cases x with
  | create p content props =>
      obtain rfl := about p rfl
      obtain ⟨rfl, stored⟩ := Keeper.store_real h
      exact ⟨_, by rw [Keeper.carryOut, Keeper.store_preview rfl], .created stored⟩
  | revise p content props report =>
      obtain rfl := about p rfl
      obtain ⟨rfl, stored⟩ := Keeper.store_real h
      exact ⟨_, by rw [Keeper.carryOut, Keeper.store_preview rfl], .reconciled stored⟩
  | delete p =>
      obtain rfl := about p rfl
      obtain ⟨rfl, removed⟩ := Keeper.erase_real h
      exact ⟨_, by rw [Keeper.carryOut, Keeper.erase_preview rfl], .deleted removed⟩
  | ignore =>
      cases h
      exact ⟨_, rfl, .ignored⟩
  | keep p =>
      obtain rfl := about p rfl
      cases h
      exact ⟨_, rfl, .unchanged⟩
  | skip p reason =>
      obtain rfl := about p rfl
      cases h
      exact ⟨_, rfl, .skipped reason⟩
  | nothingToDelete p =>
      obtain rfl := about p rfl
      cases h
      exact ⟨_, rfl, .nothingToDelete⟩
  | fail x => cases h
  | breakOff => cases h

end

/-- A preview of any run of events leaves the disk as it is and runs no formatter: with every other
one it goes the same way. Where an event can be handled in earnest, its preview tells just what
comes of it. -/
theorem preview_foretells (s : Settings) (f : Formatter) (d : Disk) :
    (∀ es : List ComponentEvent, Keeper.final ⟨s, f, .preview⟩ d (es.map .event) = d) ∧
      (∀ (g : Formatter) (hs : List Happening),
        Keeper.turns ⟨s, g, .preview⟩ d hs = Keeper.turns ⟨s, f, .preview⟩ d hs ∧
          ∀ t ∈ Keeper.turns ⟨s, f, .preview⟩ d hs, t.handled.disk = t.before ∧
            ∀ o, t.handled.result = .ok o → o.formatted = []) ∧
      ∀ e o, (Keeper.handle ⟨s, f, .real⟩ d e).result = .ok o →
        ∃ o', (Keeper.handle ⟨s, f, .preview⟩ d e).result = .ok o' ∧
          Foretold f d (s.storyOf e.path) o (Keeper.handle ⟨s, f, .real⟩ d e).disk o' := by
  refine ⟨fun es => Keeper.final_preview rfl es,
    fun g hs => ⟨Keeper.turns_preview s f g, fun t ht => ?_⟩, fun e o done => ?_⟩
  · rw [Keeper.handled_of_mem_turns ht, handle_disk, handle_result]
    obtain ⟨disk, -, formatted⟩ := Keeper.carryOut_preview (d := t.before) s f f
      (s.decide t.before t.event).decision
    exact ⟨disk, formatted⟩
  · rw [handle_result] at done ⊢
    rw [handle_disk]
    exact carryOut_foretold story?_decide done

theorem preview_foretells_card :
    let s := standardSession.keeper.settings
    let card : ComponentEvent := ⟨.added, ⟨"/p/src/components/Card.tsx"⟩⟩
    ∃ o o', (Keeper.handle ⟨s, .none, .real⟩ withButton card).result = .ok o ∧
      (Keeper.handle ⟨s, .none, .preview⟩ withButton card).result = .ok o' ∧
      Foretold .none withButton (s.storyOf card.path) o
        (Keeper.handle ⟨s, .none, .real⟩ withButton card).disk o' := by
  intro s card
  have done : (Keeper.handle ⟨s, .none, .real⟩ withButton card).result.isOk = true := by
    decide +kernel
  obtain ⟨o, done⟩ : ∃ o, (Keeper.handle ⟨s, .none, .real⟩ withButton card).result = .ok o := by
    cases result : (Keeper.handle ⟨s, .none, .real⟩ withButton card).result with
    | error x =>
        rw [result] at done
        cases done
    | ok o => exact ⟨o, rfl⟩
  obtain ⟨-, -, foretells⟩ := preview_foretells s .none withButton
  obtain ⟨o', told, foretold⟩ := foretells card o done
  exact ⟨o, o', done, told, foretold⟩

end PropStories
