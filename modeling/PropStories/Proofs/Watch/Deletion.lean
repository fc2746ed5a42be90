import PropStories.Proofs.Watch.Stream

/-!
# Which deletions are noticed

The events of a touched path depend on what is there now and on its name, and not on what is known
below it. A component that is gone is deleted with its directory, or when it is touched itself; it
stays known if something else stands at the touched path, or if a directory is named like a
component.
-/

namespace PropStories

open KnownComponents

def ComponentEvent.deletes (e : ComponentEvent) (q : Path) : Bool :=
  e.kind == .deleted && e.path.same q

/-- Whether a touched path says nothing of a component at or below it that is gone. -/
def Session.Overlooks (s : Session) (d : Disk) (p q : Path) : Prop :=
  d.isDirectory p = true ∨
    if s.scanner.filter.accepts p then d.isFile p = true ∨ q.parts ≠ p.parts
    else d.exists? p = true ∨ q.parts = p.parts

instance (s : Session) (d : Disk) (p q : Path) : Decidable (s.Overlooks d p q) :=
  inferInstanceAs (Decidable (_ ∨ ite _ _ _))

variable {s : Session} {d : Disk} {k : KnownComponents} {p q : Path} {n : Noticed}

/-! ## Counting -/

theorem countP_same (set : k.IsSet) (q : Path) :
    k.paths.countP (·.same q) = if k.contains q then 1 else 0 := by
  obtain ⟨paths⟩ := k
  induction paths with
  | nil => rfl
  | cons p paths ih =>
      obtain ⟨others, set⟩ := List.pairwise_cons.1 set
      have rest : paths.countP (·.same q) = _ := ih set
      change (p :: paths).countP (·.same q) = _
      rw [List.countP_cons, rest]
      by_cases same : p.parts = q.parts
      · have none : contains ⟨paths⟩ q = false :=
          not_contains_iff.2 fun r hr => same ▸ (others r hr).symm
        have here : contains ⟨p :: paths⟩ q = true := contains_iff.2 ⟨p, List.mem_cons_self, same⟩
        rw [none, here, Path.same_iff.2 same]
        rfl
      · simp [contains, Path.same, same]

theorem countP_deletes (gone : List Path) (q : Path) :
    (gone.map (ComponentEvent.mk .deleted)).countP (·.deletes q) = gone.countP (·.same q) := by
  rw [List.countP_map]
  rfl

theorem countP_deletes_of_ne {es : List ComponentEvent}
    (other : ∀ e ∈ es, e.kind = .deleted → e.path.parts ≠ q.parts) :
    es.countP (·.deletes q) = 0 := by
  rw [List.countP_eq_zero]
  intro e he deletes
  rw [ComponentEvent.deletes, Bool.and_eq_true, beq_iff_eq, Path.same_iff] at deletes
  exact other e he deletes.1 deletes.2

/-! ## Each kind of touched path -/

def Accounts (n : Noticed) (q : Path) (overlooked : Prop) [Decidable overlooked] : Prop :=
  (n.known.contains q = true ↔ overlooked) ∧
    n.events.countP (·.deletes q) = if overlooked then 0 else 1

theorem accounts_of_overlooked {overlooked : Prop} [Decidable overlooked] (h : overlooked)
    (known : n.known.contains q = true)
    (other : ∀ e ∈ n.events, e.kind = .deleted → e.path.parts ≠ q.parts) :
    Accounts n q overlooked :=
  ⟨iff_of_true known h, by rw [if_pos h, countP_deletes_of_ne other]⟩

theorem contains_noticeNew (known : k.contains q = true) (ps : List Path) :
    (Session.noticeNew k ps).1.contains q = true := by
  induction ps generalizing k with
  | nil => exact known
  | cons p ps ih =>
      unfold Session.noticeNew
      split
      next => exact ih known
      next => exact ih (contains_insert.2 (.inr known))

theorem classified_accounts (known : k.contains q = true) (p : Path) (isThere : Bool) :
    Accounts ⟨(k.classify p isThere).1, [], (k.classify p isThere).2.toList.map (⟨·, p⟩)⟩ q
      (isThere = true ∨ q.parts ≠ p.parts) := by
  by_cases same : q.parts = p.parts
  · have here : k.contains p = true := contains_congr same ▸ known
    cases isThere with
    | true =>
        refine accounts_of_overlooked (.inl rfl) ?_ ?_
        · simpa [classify, here] using known
        · simp [classify, here]
    | false =>
        constructor
        · simp [classify, here, contains_erase, same]
        · simp [classify, here, ComponentEvent.deletes, Path.same, same]
  · refine accounts_of_overlooked (.inr same) ?_ ?_
    · unfold classify
      split
      · exact known
      · exact contains_insert.2 (.inr known)
      · exact contains_erase.2 ⟨known, Ne.symm same⟩
      · exact known
    · intro e he
      obtain ⟨kind, -, rfl⟩ := List.mem_map.1 he
      exact fun _ => Ne.symm same

theorem forgotten_accounts (set : k.IsSet) (known : k.contains q = true)
    (below : p.parts <+: q.parts) :
    Accounts ⟨(k.forgetBelow p).1, [], (k.forgetBelow p).2.map (ComponentEvent.mk .deleted)⟩ q
      (q.parts = p.parts) := by
  have inside : isBelow p q = true ↔ q.parts ≠ p.parts := by simp [isBelow_iff, below]
  have gone : contains ⟨(k.forgetBelow p).2⟩ q = true ↔ q.parts ≠ p.parts := by
    rw [← inside, contains_iff]
    constructor
    · rintro ⟨r, member, same⟩
      have below := isBelow_iff.1 (List.mem_filter.1 member).2
      exact isBelow_iff.2 (same ▸ below)
    · intro below
      obtain ⟨r, member, same⟩ := contains_iff.1 known
      exact ⟨r, List.mem_filter.2 ⟨member, isBelow_iff.2 (same ▸ isBelow_iff.1 below)⟩, same⟩
  constructor
  · rw [contains_forgetBelow, ← Bool.not_eq_true, inside]
    simp [known]
  · rw [countP_deletes, countP_same (k := ⟨(k.forgetBelow p).2⟩) (set.filter _)]
    simp only [gone]
    by_cases same : q.parts = p.parts <;> simp [same]

/-- A known component at or below a touched path gets one deletion and is forgotten, unless it is
overlooked: then it gets none and stays known, also where it is gone. -/
theorem deletion_noticed_iff (set : k.IsSet) (noticed : s.notice d k p = .ok n)
    (below : q.startsWith p = true) (known : k.contains q = true) :
    (n.known.contains q = true ↔ s.Overlooks d p q) ∧
      n.events.countP (·.deletes q) = if s.Overlooks d p q then 0 else 1 := by
  change Accounts n q (s.Overlooks d p q)
  cases notice_notices noticed with
  | scanned directory scan =>
      refine accounts_of_overlooked (.inl directory) (contains_noticeNew known _) ?_
      intro e he deleted
      rw [(mem_noticeNew he).1] at deleted
      cases deleted
  | classified other accepted =>
      have overlooks : s.Overlooks d p q ↔ d.isFile p = true ∨ q.parts ≠ p.parts := by
        simp [Session.Overlooks, other, accepted]
      simpa only [Accounts, overlooks] using classified_accounts known p (d.isFile p)
  | forgotten other refused missing =>
      have overlooks : s.Overlooks d p q ↔ q.parts = p.parts := by
        simp [Session.Overlooks, other, refused, missing]
      simpa only [Accounts, overlooks] using
        forgotten_accounts set known (Path.startsWith_iff.1 below)
  | nothing other refused there =>
      refine accounts_of_overlooked ?_ known (by simp)
      simp [Session.Overlooks, refused, there]

def formsDirectory : Path := ⟨"/p/src/components/forms.tsx"⟩

def formsInput : Path := ⟨"/p/src/components/forms.tsx/Input.tsx"⟩

theorem deletion_noticed_iff_of_forms :
    KnownComponents.IsSet ⟨[formsInput]⟩ ∧ formsInput.startsWith formsDirectory = true ∧
      withComponent.exists? formsDirectory = false ∧
      ∃ n, watchedSession.notice withComponent ⟨[formsInput]⟩ formsDirectory = .ok n ∧
        n.known.contains formsInput = true ∧ n.events.countP (·.deletes formsInput) = 0 := by
  have set : KnownComponents.IsSet ⟨[formsInput]⟩ := List.pairwise_singleton _ _
  have directory : withComponent.isDirectory formsDirectory = false := by decide +kernel
  have accepted : watchedSession.scanner.filter.accepts formsDirectory = true := by
    decide +kernel
  obtain ⟨n, noticed⟩ :
      ∃ n, watchedSession.notice withComponent ⟨[formsInput]⟩ formsDirectory = .ok n := by
    rw [Session.notice, directory, accepted]
    exact ⟨_, rfl⟩
  have below : formsInput.startsWith formsDirectory = true := by decide +kernel
  have known : contains ⟨[formsInput]⟩ formsInput = true := by decide +kernel
  have overlooked : watchedSession.Overlooks withComponent formsDirectory formsInput :=
    .inr (by rw [if_pos accepted]; exact .inr (by decide +kernel))
  obtain ⟨still, count⟩ := deletion_noticed_iff set noticed below known
  rw [if_pos overlooked] at count
  exact ⟨set, below, by decide +kernel, n, noticed, still.2 overlooked, count⟩

end PropStories
