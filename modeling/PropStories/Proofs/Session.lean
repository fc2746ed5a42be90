import PropStories.Session

/-!
# Runs of a session

A session handles one event after the other. A run ends early only at an event at which the program
breaks off.
-/

namespace PropStories

theorem isBrokenOff_of_success {α : Type} {r : Except Failure α} (h : r.isOk = true) :
    Failure.isBrokenOff r = false := by
  cases r with
  | ok a => rfl
  | error x => cases h

theorem Progress.isBrokenOff_of_clean {p : Progress}
    (clean : ∀ r ∈ p.reports, r.isFailure = false) : p.isBrokenOff = false := by
  rw [Progress.isBrokenOff, List.any_eq_false]
  intro r hr
  have success : r.result.isOk = true := by simpa [EventReport.isFailure] using clean r hr
  simp [isBrokenOff_of_success success]

def Keeper.breaksOff (k : Keeper) (d : Disk) (e : ComponentEvent) : Bool :=
  Failure.isBrokenOff (k.handle d e).result

namespace Session

variable {t : Session} {d : Disk} {e : ComponentEvent} {es : List ComponentEvent}

theorem isBrokenOff_dispatch : (t.dispatch d e).isBrokenOff = t.keeper.breaksOff d e := by
  simp [dispatch, Progress.isBrokenOff, Keeper.breaksOff]

theorem dispatchAll_of_breaksOff (h : t.keeper.breaksOff d e = true) :
    t.dispatchAll d (e :: es) = t.dispatch d e := by
  simp [dispatchAll, isBrokenOff_dispatch, h]

theorem dispatchAll_cons (h : t.keeper.breaksOff d e = false) (es : List ComponentEvent) :
    (t.dispatchAll d (e :: es)).disk = (t.dispatchAll (t.keeper.handle d e).disk es).disk ∧
      (t.dispatchAll d (e :: es)).reports =
        ⟨e, (t.keeper.handle d e).result⟩ ::
          (t.dispatchAll (t.keeper.handle d e).disk es).reports := by
  have onward : (t.dispatch d e).isBrokenOff = false := isBrokenOff_dispatch.trans h
  simp only [dispatchAll, onward]
  exact ⟨rfl, rfl⟩

theorem breaksOff_of_clean
    (clean : ∀ r ∈ (t.dispatchAll d (e :: es)).reports, r.isFailure = false) :
    t.keeper.breaksOff d e = false := by
  rw [← Bool.not_eq_true]
  intro broken
  rw [dispatchAll_of_breaksOff broken] at clean
  have onward := Progress.isBrokenOff_of_clean clean
  rw [isBrokenOff_dispatch, broken] at onward
  contradiction

theorem disk_dispatchAll_singleton : (t.dispatchAll d [e]).disk = (t.keeper.handle d e).disk := by
  cases h : t.keeper.breaksOff d e with
  | true => rw [dispatchAll_of_breaksOff h, dispatch]
  | false => rw [(dispatchAll_cons h _).1, dispatchAll]

theorem dispatchAll_preserves {P : Disk → Prop}
    (step : ∀ d, ∀ e ∈ es, P d → P (t.keeper.handle d e).disk) (start : P d) :
    P (t.dispatchAll d es).disk := by
  induction es generalizing d with
  | nil => exact start
  | cons e es ih =>
      have next := step d e List.mem_cons_self start
      cases h : t.keeper.breaksOff d e with
      | true =>
          rw [dispatchAll_of_breaksOff h]
          exact next
      | false =>
          rw [(dispatchAll_cons h _).1]
          exact ih (fun d e he => step d e (List.mem_cons_of_mem _ he)) next

theorem isBrokenOff_dispatchAll (never : ∀ d, ∀ e ∈ es, t.keeper.breaksOff d e = false) :
    (t.dispatchAll d es).isBrokenOff = false := by
  induction es generalizing d with
  | nil => rfl
  | cons e es ih =>
      obtain ⟨-, reports⟩ := dispatchAll_cons (never d e List.mem_cons_self) es
      rw [Progress.isBrokenOff, reports, List.any_cons, Bool.or_eq_false_iff]
      exact ⟨never d e List.mem_cons_self, ih fun d e he => never d e (List.mem_cons_of_mem _ he)⟩

theorem dispatchAll_events (whole : (t.dispatchAll d es).isBrokenOff = false) :
    (t.dispatchAll d es).reports.map (·.event) = es := by
  induction es generalizing d with
  | nil => rfl
  | cons e es ih =>
      cases h : t.keeper.breaksOff d e with
      | true =>
          rw [dispatchAll_of_breaksOff h, isBrokenOff_dispatch, h] at whole
          contradiction
      | false =>
          obtain ⟨-, reports⟩ := dispatchAll_cons h es
          rw [Progress.isBrokenOff, reports, List.any_cons, Bool.or_eq_false_iff] at whole
          rw [reports, List.map_cons, ih whole.2]

end Session

end PropStories
