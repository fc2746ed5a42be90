import PropStories.Proofs.Tsx.Programs

/-!
# Lists as they are laid out

A list in brackets is written in one of two ways: its entries on lines of their own, each with a
comma behind it and perhaps a note behind that, or all of them on one line with commas between them.
Behind the value of an entry a comment may stand. Main statement: an object literal on lines of its
own has one pair for each entry, in order.
-/

namespace PropStories.Tsx

structure Entry where
  key : Option (List Char)
  core : List Char
  tail : List Char
  /-- What stands behind the comma on the same line. -/
  note : List Char
  deriving Inhabited

namespace Entry

def text (e : Entry) : List Char := Slot.lead e.key ++ (e.core ++ e.tail)

def slot (gap : List Char) (e : Entry) : Slot := .item gap e.key e.core e.tail

structure Fits (keys : Option (List Char) → Prop) (values : List Char → Prop) (e : Entry) :
    Prop where
  key : keys e.key
  core : values e.core
  tail : IsGap e.tail
  note : ∀ g, IsGap ('\n' :: g) → IsGap (e.note ++ '\n' :: g)

end Entry

/-! ## Slots of a layout -/

def inside : List Slot → List Char
  | [] => []
  | s :: ss => Slot.body s ss

theorem more_eq {gap : List Char} {ss : List Slot} (h : ss ≠ []) :
    Slot.more gap ss = gap ++ ',' :: inside ss := by
  cases ss with
  | nil => contradiction
  | cons s ss => rfl

/-- Entries on lines of their own, which begin with `gap`; the last line begins with `ending`. What
is left of the line before is `note`. -/
def ownLines (gap ending note : List Char) : List Entry → List Slot
  | [] => [.hole (note ++ '\n' :: ending)]
  | e :: es => e.slot (note ++ '\n' :: gap) :: ownLines gap ending e.note es

theorem ownLines_ne_nil (gap ending note : List Char) (es : List Entry) :
    ownLines gap ending note es ≠ [] := by
  cases es <;> exact List.cons_ne_nil _ _

theorem inside_ownLines (gap ending note : List Char) (es : List Entry) :
    inside (ownLines gap ending note es) = note ++
      '\n' :: (es.flatMap (fun e => gap ++ (e.text ++ ',' :: (e.note ++ ['\n']))) ++ ending) := by
  induction es generalizing note with
  | nil =>
      rw [ownLines, inside, Slot.body, Slot.text, Slot.more, Slot.tail]
      simp
  | cons e es ih =>
      rw [ownLines]
      show (e.slot _).text ++ Slot.more e.tail (ownLines gap ending e.note es) = _
      rw [more_eq (ownLines_ne_nil _ _ _ _), ih, List.flatMap_cons, Entry.slot, Slot.text, Entry.text]
      simp

def oneLine (gap ending : List Char) : List Entry → List Slot
  | [] => [.hole []]
  | [e] => [.item gap e.key e.core (e.tail ++ ending)]
  | e :: es => e.slot gap :: oneLine [' '] ending es

theorem oneLine_ne_nil (gap ending : List Char) (es : List Entry) : oneLine gap ending es ≠ [] := by
  unfold oneLine
  split <;> exact List.cons_ne_nil _ _

theorem inside_oneLine (gap ending : List Char) {es : List Entry} (h : es ≠ []) :
    inside (oneLine gap ending es) =
      gap ++ ([',', ' '].intercalate (es.map Entry.text) ++ ending) := by
  induction es generalizing gap with
  | nil => contradiction
  | cons e es ih =>
      cases es with
      | nil =>
          rw [List.map_singleton, List.intercalate_singleton, oneLine, inside, Slot.body, Slot.text,
            Slot.more, Slot.tail, Entry.text]
          simp
      | cons d ds =>
          show (e.slot gap).text ++ Slot.more e.tail (oneLine [' '] ending (d :: ds)) = _
          rw [more_eq (oneLine_ne_nil _ _ _), ih _ (List.cons_ne_nil _ _), List.map_cons (l := d :: ds),
            List.map_cons, List.intercalate_cons_cons, Entry.slot, Slot.text]
          simp [Entry.text]

/-! ## Values of a layout -/

def Slot.Filled (keys : Option (List Char) → Prop) (values : List Char → Prop) (s : Slot) : Prop :=
  s.Fits keys ∧ ∀ c, s.core? = some c → values c

section

variable {keys : Option (List Char) → Prop} {values : List Char → Prop}
  {gap ending note tail : List Char} {e : Entry} {es : List Entry} {ss : List Slot}

theorem filled_hole (htail : IsGap tail) : (Slot.hole tail).Filled keys values :=
  ⟨htail, fun _ core => by cases core⟩

theorem filled_item (he : e.Fits keys values) (hgap : IsGap gap) (htail : IsGap tail) :
    (Slot.item gap e.key e.core tail).Filled keys values :=
  ⟨⟨hgap, he.key, htail⟩, fun _ core => Option.some.inj core ▸ he.core⟩

theorem filled_ownLines (note : List Char) (hgap : IsGap ('\n' :: gap))
    (hending : IsGap ('\n' :: ending))
    (hnote : ∀ g, IsGap ('\n' :: g) → IsGap (note ++ '\n' :: g))
    (h : ∀ e ∈ es, e.Fits keys values) :
    ∀ s ∈ ownLines gap ending note es, s.Filled keys values := by
  induction es generalizing note with
  | nil =>
      intro s hs
      rw [List.mem_singleton.1 hs]
      exact filled_hole (hnote _ hending)
  | cons e es ih =>
      have he := h e List.mem_cons_self
      intro s hs
      rcases List.mem_cons.1 hs with rfl | hs
      · exact filled_item he (hnote _ hgap) he.tail
      · exact ih e.note he.note (fun e he => h e (List.mem_cons_of_mem _ he)) s hs

theorem filled_oneLine (es : List Entry) (hgap : IsGap gap) (hending : IsGap ending)
    (h : ∀ e ∈ es, e.Fits keys values) : ∀ s ∈ oneLine gap ending es, s.Filled keys values := by
  induction es generalizing gap with
  | nil =>
      intro s hs
      rw [List.mem_singleton.1 hs]
      exact filled_hole .nil
  | cons e es ih =>
      have he := h e List.mem_cons_self
      cases es with
      | nil =>
          intro s hs
          rw [List.mem_singleton.1 hs]
          exact filled_item he hgap (he.tail.append hending)
      | cons d ds =>
          intro s hs
          rcases List.mem_cons.1 hs with rfl | hs
          · exact filled_item he hgap he.tail
          · exact ih isGap_blank (fun e he => h e (List.mem_cons_of_mem _ he)) s hs

theorem pairs_ownLines (gap ending note : List Char) (es : List Entry) :
    ((ownLines gap ending note es).filter Slot.isItem).map Slot.pair? =
      es.map fun e => (e.slot []).pair? := by
  induction es generalizing note with
  | nil => rfl
  | cons e es ih =>
      have same : (e.slot (note ++ '\n' :: gap)).pair? = (e.slot []).pair? := by
        obtain ⟨_ | k, core, tail, note⟩ := e <;> rfl
      rw [ownLines, List.filter_cons_of_pos rfl, List.map_cons, List.map_cons, ih, same]

theorem isValue_array (some_ : ss ≠ []) (h : ∀ s ∈ ss, s.Filled Unkeyed IsValue) :
    IsValue ('[' :: (inside ss ++ [']'])) := by
  obtain ⟨s, ss, rfl⟩ := List.exists_cons_of_ne_nil some_
  exact .array (fun t ht => (h t ht).1) fun t ht => (h t ht).2

theorem isValue_object (some_ : ss ≠ []) (h : ∀ s ∈ ss, s.Filled Keyed IsValue) :
    IsValue ('\x7b' :: (inside ss ++ ['\x7d'])) := by
  obtain ⟨s, ss, rfl⟩ := List.exists_cons_of_ne_nil some_
  exact .object (fun t ht => (h t ht).1) fun t ht => (h t ht).2

theorem isObject_ownLines (hgap : IsGap ('\n' :: gap)) (hending : IsGap ('\n' :: ending))
    (h : ∀ e ∈ es, e.Fits Keyed Standalone) :
    IsObject ('\x7b' :: (inside (ownLines gap ending [] es) ++ ['\x7d']))
      (es.map fun e => (e.slot []).pair?) := by
  have filled := filled_ownLines [] hgap hending (fun _ hg => hg) h
  have pairs := pairs_ownLines gap ending [] es
  obtain ⟨s, ss, eq⟩ := List.exists_cons_of_ne_nil (ownLines_ne_nil gap ending [] es)
  rw [eq] at filled pairs ⊢
  exact pairs ▸ isObject_slots (fun t ht => (filled t ht).1) fun t ht => (filled t ht).2

/-- An object on lines of its own is a literal with one pair for each entry. -/
theorem isLiteral_ownLines {α : Type} {xs : List α} {entry : α → Entry} {key : α → List Char}
    (hgap : IsGap ('\n' :: gap)) (hending : IsGap ('\n' :: ending))
    (h : ∀ x ∈ xs, (entry x).Fits Keyed Standalone ∧ (entry x).key = some (key x)) :
    let text := '\x7b' :: (inside (ownLines gap ending [] (xs.map entry)) ++ ['\x7d'])
    Standalone text ∧ IsLiteral text (xs.map fun x => (key x, (entry x).core)) := by
  have fits : ∀ e ∈ xs.map entry, e.Fits Keyed Standalone :=
    List.forall_mem_map.2 fun x hx => (h x hx).1
  have filled := filled_ownLines [] hgap hending (fun _ hg => hg) fits
  have pairs : ((ownLines gap ending [] (xs.map entry)).filter Slot.isItem).map Slot.pair? =
      (xs.map fun x => (key x, (entry x).core)).map fun m => some (m.1, m.1 ++ [':', ' '] ++ m.2) := by
    rw [pairs_ownLines, List.map_map, List.map_map]
    refine List.map_congr_left fun x hx => ?_
    rw [Function.comp_apply, Entry.slot, (h x hx).2]
    rfl
  refine ⟨(isObject_ownLines hgap hending fits).standalone, ?_⟩
  obtain ⟨s, ss, eq⟩ := List.exists_cons_of_ne_nil (ownLines_ne_nil gap ending [] (xs.map entry))
  rw [eq] at filled pairs ⊢
  exact isLiteral_object (fun t ht => (filled t ht).1) (fun t ht => (filled t ht).2) rfl pairs

end

/-! ## Values with a comment behind them -/

def IsSpaced (values : List Char → Prop) (text : List Char) : Prop :=
  ∃ v tail, text = v ++ tail ∧ values v ∧ IsGap tail

theorem isSpaced_of_value {values : List Char → Prop} {v : List Char} (h : values v) :
    IsSpaced values v :=
  ⟨v, [], (List.append_nil v).symm, h, .nil⟩

theorem IsSpaced.isExpression {text : String} (h : IsSpaced IsValue text.toList) :
    isExpression text = true := by
  obtain ⟨v, tail, eq, value, gap⟩ := h
  rw [← String.ofList_toList (s := text), eq]
  exact value.isExpression gap

theorem IsSpaced.exists_entry {keys : Option (List Char) → Prop} {values : List Char → Prop}
    {key : Option (List Char)} {text : List Char} (h : IsSpaced values text) (hkey : keys key)
    (note : List Char) (hnote : ∀ g, IsGap ('\n' :: g) → IsGap (note ++ '\n' :: g)) :
    ∃ e : Entry, e.Fits keys values ∧ e.text = Slot.lead key ++ text ∧ e.key = key ∧
      e.note = note ∧ ∃ tail, IsGap tail ∧ e.core ++ tail = text := by
  obtain ⟨v, tail, rfl, value, gap⟩ := h
  exact ⟨⟨key, v, tail, note⟩, ⟨hkey, value, gap, hnote⟩, rfl, rfl, rfl, tail, gap, rfl⟩

/-! ## Single values -/

theorem isValue_emptyArray : IsValue "[]".toList :=
  isValue_array (List.cons_ne_nil _ _) (filled_oneLine [] .nil .nil nofun)

theorem isValue_emptyObject : IsValue "\x7b\x7d".toList :=
  isValue_object (List.cons_ne_nil _ _) (filled_oneLine [] .nil .nil nofun)

theorem isLiteral_emptyObject : IsLiteral "\x7b\x7d".toList [] := by
  refine @isLiteral_object (.hole []) [] _ (fun t ht => ?_) (fun t ht c core => ?_) rfl [] rfl
  · rw [List.mem_singleton.1 ht]
    exact .nil
  · rw [List.mem_singleton.1 ht] at core
    cases core

end PropStories.Tsx
