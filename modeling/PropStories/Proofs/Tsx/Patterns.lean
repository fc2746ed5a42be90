import PropStories.Proofs.Tsx.Values

/-!
# Values read as patterns

A value in parentheses may at first be read as the parameters of an arrow function. A pattern that
is read out of a value is the whole value, or ends in front of a parenthesis, or there is none; so
no arrow function is read out of a value in parentheses. Main statement: in parentheses and in
front of a semicolon, a value is one expression.
-/

namespace PropStories.Tsx

open Cursor (behind)
open Grammar

/-! ## Cursors in sight of something -/

def At (sights : List Sight) (c : Cursor) : Prop :=
  c.repairs = [] ∧ ∃ s ∈ sights, s.Shows c.ahead

/-- Where reading may lead: nowhere, to the given cursor, or in front of one of the sights. -/
inductive Leads (stop : Cursor) (sights : List Sight) : Option (List Tree × Cursor) → Prop
  | nowhere : Leads stop sights none
  | whole (ts : List Tree) : Leads stop sights (some (ts, stop))
  | short (ts : List Tree) {c : Cursor} (at_ : At sights c) : Leads stop sights (some (ts, c))

section

variable {limit fuel n : Nat} {a b r : Rule} {c stop : Cursor} {sights : List Sight}
  {text rest : List Char}

theorem Opens.at (h : Opens sights text) : At sights (behind n text) := by
  obtain ⟨s, hs, g, more, rfl, gap, firm, shows⟩ := h
  exact ⟨rfl, s, hs, by rwa [Cursor.ahead_behind gap firm]⟩

theorem At.refused (h : At sights c) (bars : ∀ s ∈ sights, s.bars r = true) :
    (running limit fuel r c).result = none := by
  obtain ⟨clean, s, hs, shows⟩ := h
  exact refuses_of_sight clean shows (bars s hs) limit fuel

theorem At.mono {more : List Sight} (h : At sights c) (sub : sights ⊆ more) : At more c := by
  obtain ⟨clean, s, hs, shows⟩ := h
  exact ⟨clean, s, sub hs, shows⟩

namespace Leads

variable {o : Option (List Tree × Cursor)}

theorem mapTrees (h : Leads stop sights o) (f : List Tree → List Tree) :
    Leads stop sights (o.map fun (ts, c) => (f ts, c)) := by
  cases h with
  | nowhere => exact .nowhere
  | whole ts => exact .whole (f ts)
  | short ts at_ => exact .short (f ts) at_

theorem mono {more : List Sight} (h : Leads stop sights o) (sub : sights ⊆ more) :
    Leads stop more o := by
  cases h with
  | nowhere => exact .nowhere
  | whole ts => exact .whole ts
  | short ts at_ => exact .short ts (at_.mono sub)

theorem node (h : Leads stop sights (running limit fuel a c).result) (k : Kind) :
    Leads stop sights (running limit fuel (.node k a) c).result :=
  h.mapTrees (Tree.wrap k c.place)

theorem label (h : Leads stop sights (running limit fuel a c).result) (l : Label) :
    Leads stop sights (running limit fuel (.label l a) c).result :=
  h.mapTrees (Tree.labelled l)

theorem before_nothing (h : Leads stop sights (running limit fuel a c).result)
    (whole : (running limit fuel b stop).result = some ([], stop))
    (short : ∀ c, At sights c → (running limit fuel b c).result = some ([], c)) :
    Leads stop sights (running limit fuel (a ++ b) c).result := by
  generalize read : (running limit fuel a c).result = o at h
  cases h with
  | nowhere =>
      have none : (running limit fuel (a ++ b) c).result = none := by
        show (Rule.run _ _ (.seq a b) _).result = _
        rw [Rule.run]
        simp only [running] at read
        simp only [read]
      rw [none]
      exact .nowhere
  | whole ts =>
      rw [run_seq_of_some read, whole, Option.map_some]
      exact .whole _
  | @short ts d at_ =>
      rw [run_seq_of_some read, short d at_, Option.map_some]
      exact .short _ at_

end Leads

theorem run_seq_of_none (h : (running limit fuel a c).result = none) :
    (running limit fuel (a ++ b) c).result = none := by
  show (Rule.run _ _ (.seq a b) _).result = _
  rw [Rule.run]
  simp only [running] at h
  simp only [h]

end

/-! ## Lists -/

/-- What an item of a list that is no pattern may leave in front of the cursor. -/
def strayOpenings : List Sight :=
  quoteSights ++ numberSights ++ [.name []] ++ ['[', '\x7b', '(', ':', '-', '+'].map .char

section

variable {limit fuel n : Nat} {item : Rule} {c : Char} {rest gap : List Char}

/-- Read as an item of a pattern, the slot is taken as a whole, or something of it is left. -/
def Slot.Strays (limit fuel : Nat) (item : Rule) (s : Slot) : Prop :=
  ∀ ⦃n : Nat⦄ ⦃rest : List Char⦄, Closed closers rest →
    Leads (behind (n + s.text.length) rest) strayOpenings
      (running limit fuel (.opt item) (behind n (s.text ++ rest))).result

theorem stray_repeated {cursor : Cursor} (stray : At strayOpenings cursor) (x : Rule) (times : Nat) :
    (Rule.repeated (running limit fuel (mark "," ++ x)) times cursor).result =
      some ([], cursor) :=
  repeated_of_none (run_seq_of_none (stray.refused (by decide))) times

theorem closed_slots (hgap : IsGap gap) (closer : c ∈ closers) (ss : List Slot) :
    Closed closers (Slot.more gap ss ++ c :: rest) := by
  refine (closed_more hgap closer ss).mono fun d hd => ?_
  obtain rfl | rfl : d = ',' ∨ d = c := by simpa using hd
  · decide
  · exact closer

theorem repeated_leads {ss : List Slot} {keys : Option (List Char) → Prop}
    (close : (Sight.char c).bars (mark "," ++ .opt item) = true) (closer : c ∈ closers)
    (strays : ∀ s ∈ ss, s.Strays limit fuel item) (fits : ∀ s ∈ ss, s.Fits keys)
    (hgap : IsGap gap) (times : Nat) :
    ∃ ts d, (Rule.repeated (running limit fuel (mark "," ++ .opt item)) times
        (behind n (Slot.more gap ss ++ c :: rest))).result = some (ts, d) ∧
      ((∃ covered last, Slot.more gap ss = covered ++ last ∧ IsGap last ∧
        d = behind (n + covered.length) (last ++ c :: rest)) ∨
        At (.char ',' :: strayOpenings) d) := by
  have proper := closers_proper c closer
  induction times generalizing ss n gap with
  | zero =>
      refine ⟨[], _, rfl, ?_⟩
      cases ss with
      | nil => exact .inl ⟨[], gap, rfl, hgap, rfl⟩
      | cons s ss =>
          right
          rw [Slot.more, List.append_assoc, List.cons_append]
          exact Opens.at ⟨.char ',', List.mem_cons_self,
            (begins_char (by decide) (by decide) _).gap hgap⟩
  | succ times ih =>
      cases ss with
      | nil =>
          refine ⟨[], _, repeated_of_none ?_ _, .inl ⟨[], gap, rfl, hgap, rfl⟩⟩
          exact ((begins_char proper.1 proper.2 rest).gap hgap).refused close
      | cons s ss =>
          have hs : s.Fits keys := fits s List.mem_cons_self
          have closed := @closed_slots _ rest _ hs.tail closer ss
          have text : Slot.more gap (s :: ss) ++ c :: rest =
              gap ++ ",".toList ++ (s.text ++ (Slot.more s.tail ss ++ c :: rest)) := by
            rw [Slot.more]
            simp
          have atComma : At (.char ',' :: strayOpenings)
              (behind n (Slot.more gap (s :: ss) ++ c :: rest)) := by
            rw [Slot.more, List.append_assoc, List.cons_append]
            exact Opens.at ⟨.char ',', List.mem_cons_self,
              (begins_char (by decide) (by decide) _).gap hgap⟩
          obtain ⟨all, comma, -⟩ := @accepts_mark limit fuel n gap
            (s.text ++ (Slot.more s.tail ss ++ c :: rest)) "," _ _ hgap rfl (by decide)
          rw [← text] at comma
          have stays := strays s List.mem_cons_self (n := n + (gap ++ ",".toList).length) closed
          generalize read : (running limit fuel (.opt item) _).result = o at stays
          have step := run_seq_of_some (b := .opt item) comma
          rw [read] at step
          cases stays with
          | nowhere => exact ⟨[], _, repeated_of_none step _, .inr atComma⟩
          | whole ts =>
              have moves : n < n + (gap ++ ",".toList).length + s.text.length := by
                simp only [List.length_append, show ",".toList.length = 1 from rfl]
                omega
              obtain ⟨us, d, run, stop⟩ := ih
                (n := n + (gap ++ ",".toList).length + s.text.length)
                (fun t ht => strays t (List.mem_cons_of_mem _ ht))
                (fun t ht => fits t (List.mem_cons_of_mem _ ht)) hs.tail
              have whole := repeated_of_some step moves times
              rw [run] at whole
              refine ⟨_, d, whole, ?_⟩
              obtain ⟨covered, last, eq, hlast, rfl⟩ | stray := stop
              · refine .inl ⟨gap ++ ",".toList ++ s.text ++ covered, last, ?_, hlast, ?_⟩
                · rw [Slot.more, eq]
                  simp
                · congr 1
                  simp only [List.length_append]
                  omega
              · exact .inr stray
          | @short ts d stray =>
              by_cases moves : n < d.place
              · have whole := repeated_of_some step moves times
                rw [stray_repeated stray] at whole
                exact ⟨_, d, whole, .inr (stray.mono (List.subset_cons_self _ _))⟩
              · exact ⟨_, _, repeated_of_still step moves times, .inr atComma⟩

theorem holedList_leads {s : Slot} {ss : List Slot} {keys : Option (List Char) → Prop}
    (close : (Sight.char c).bars (mark "," ++ .opt item) = true) (closer : c ∈ closers)
    (strays : ∀ t ∈ s :: ss, t.Strays limit fuel item) (fits : ∀ t ∈ s :: ss, t.Fits keys)
    {o : Option (List Tree × Cursor)} (read : (running limit fuel (holedListOf item)
      (behind n (Slot.body s ss ++ c :: rest))).result = o) :
    o = none ∨ ∃ ts d, o = some (ts, d) ∧
      ((∃ covered last, Slot.body s ss = covered ++ last ∧ IsGap last ∧
        d = behind (n + covered.length) (last ++ c :: rest)) ∨
        At (.char ',' :: strayOpenings) d) := by
  have hs : s.Fits keys := fits s List.mem_cons_self
  have first := strays s List.mem_cons_self (n := n) (@closed_slots _ rest _ hs.tail closer ss)
  rw [← List.append_assoc, ← Slot.body] at first
  subst read
  generalize read : (running limit fuel (.opt item) _).result = result at first
  cases first with
  | nowhere => exact .inl (run_seq_of_none read)
  | @short ts d stray =>
      have many : (running limit fuel (.many (mark "," ++ .opt item)) d).result = some ([], d) :=
        stray_repeated stray _ _
      have list := run_seq_of_some (b := .many (mark "," ++ .opt item)) read
      rw [many] at list
      exact .inr ⟨_, d, list, .inr (stray.mono (List.subset_cons_self _ _))⟩
  | whole ts =>
      obtain ⟨us, d, many, stop⟩ := @repeated_leads limit fuel (n + s.text.length) _ _ rest _ _ _
        close closer (fun t ht => strays t (List.mem_cons_of_mem _ ht))
        (fun t ht => fits t (List.mem_cons_of_mem _ ht)) hs.tail limit
      have many : (running limit fuel (.many (mark "," ++ .opt item)) _).result = some (us, d) :=
        many
      have list := run_seq_of_some (b := .many (mark "," ++ .opt item)) read
      rw [many] at list
      refine .inr ⟨_, d, list, stop.imp_left ?_⟩
      rintro ⟨covered, last, eq, hlast, rfl⟩
      refine ⟨s.text ++ covered, last, ?_, hlast, ?_⟩
      · rw [Slot.body, eq, List.append_assoc]
      · rw [List.length_append, Nat.add_assoc]

/-- A list in brackets is read as a whole or not at all. -/
theorem brackets_lead {k : Kind} {o : Char} {op cl : String} {s : Slot} {ss : List Slot}
    {keys : Option (List Char) → Prop} (opening : op.toList = [o])
    (proper : Lexeme.isGap o = false ∧ o ≠ '/') (closing : cl.toList = [c]) (closer : c ∈ closers)
    (close : (Sight.char c).bars (mark "," ++ .opt item) = true)
    (open_ : ∀ s ∈ .char ',' :: strayOpenings, s.bars (mark cl) = true)
    (strays : ∀ t ∈ s :: ss, t.Strays limit fuel item) (fits : ∀ t ∈ s :: ss, t.Fits keys)
    (hgap : IsGap gap) :
    Leads (behind (n + (gap ++ o :: (Slot.body s ss ++ [c])).length) rest) []
      (running limit fuel (.node k (mark op ++ holedListOf item ++ mark cl))
        (behind n (gap ++ o :: (Slot.body s ss ++ [c]) ++ rest))).result := by
  refine Leads.node ?_ k
  obtain ⟨all, bracket, -⟩ := @accepts_mark limit fuel n gap (Slot.body s ss ++ c :: rest) op _ _
    hgap opening proper
  have text : gap ++ op.toList ++ (Slot.body s ss ++ c :: rest) =
      gap ++ o :: (Slot.body s ss ++ [c]) ++ rest := by
    rw [opening]
    simp
  rw [text] at bracket
  have inner := run_seq_of_some (b := holedListOf item) bracket
  obtain none | ⟨ts, d, list, stop⟩ := @holedList_leads _ _ (n + (gap ++ op.toList).length) _ _ rest
    _ _ _ close closer strays fits _ rfl
  · rw [none] at inner
    rw [run_seq_of_none inner]
    exact .nowhere
  · rw [list] at inner
    rw [run_seq_of_some inner]
    obtain ⟨covered, last, eq, hlast, rfl⟩ | stray := stop
    · obtain ⟨all, ends, -⟩ := @accepts_mark limit fuel
        (n + (gap ++ op.toList).length + covered.length) last rest cl _ _ hlast closing
        (closers_proper c closer)
      have around : last ++ cl.toList ++ rest = last ++ c :: rest := by
        rw [closing]
        simp
      have place : n + (gap ++ op.toList).length + covered.length + (last ++ cl.toList).length =
          n + (gap ++ o :: (Slot.body s ss ++ [c])).length := by
        rw [eq, opening, closing]
        simp only [List.length_append, List.length_cons, List.length_nil]
        omega
      rw [around, place] at ends
      rw [ends]
      exact .whole _
    · rw [stray.refused open_]
      exact .nowhere

end

/-! ## Values -/

/-- Read as a pattern, the text is taken as a whole, or up to a parenthesis, or not at all. -/
def Patterned (limit fuel : Nat) (text : List Char) : Prop :=
  ∀ ⦃g rest : List Char⦄ ⦃n : Nat⦄, IsGap g → Closed closers rest →
    Leads (behind (n + (g ++ text).length) rest) [.char '(']
      (running limit fuel (.ref .pattern) (behind n (g ++ text ++ rest))).result

section

variable {limit fuel n : Nat} {rest gap w : List Char}

theorem Leads.of_none {o : Option (List Tree × Cursor)} {stop : Cursor} {sights : List Sight}
    (h : o = none) : Leads stop sights o := h ▸ .nowhere

theorem opt_of_some {a : Rule} {c : Cursor} {x : List Tree × Cursor}
    (h : (running limit fuel a c).result = some x) :
    (running limit fuel (.opt a) c).result = some x := by
  rw [running, Rule.run]
  simp only [running] at h
  simp only [h]

/-- Where the rule gives nothing, the cursor stays in front of the item. -/
theorem Leads.opt {a : Rule} {c stop : Cursor} {sights : List Sight}
    (h : Leads stop sights (running limit fuel a c).result) (at_ : At sights c) :
    Leads stop sights (running limit fuel (.opt a) c).result := by
  generalize read : (running limit fuel a c).result = o at h
  cases h with
  | nowhere =>
      rw [opt_of_none read]
      exact .short [] at_
  | whole ts =>
      rw [opt_of_some read]
      exact .whole ts
  | short ts at_ =>
      rw [opt_of_some read]
      exact .short ts at_

theorem Leads.or {a b : Rule} {c stop : Cursor} {sights : List Sight}
    (ha : Leads stop sights (running limit fuel a c).result)
    (hb : Leads stop sights (running limit fuel b c).result) :
    Leads stop sights (running limit fuel (a <|> b) c).result := by
  generalize read : (running limit fuel a c).result = o at ha
  cases ha with
  | nowhere =>
      rw [run_alt_of_none read]
      exact hb
  | whole ts =>
      rw [run_alt_of_some read]
      exact .whole ts
  | short ts at_ =>
      rw [run_alt_of_some read]
      exact .short ts at_

theorem Reaches.leads {a b : Rule} {text : List Char} {ts : List Tree} {stop : Cursor}
    {sights : List Sight} (ha : Accepts limit fuel a n text rest ts)
    (hb : Leads stop sights (running limit fuel b (behind (n + text.length) rest)).result) :
    Leads stop sights (running limit fuel (a ++ b) (behind n (text ++ rest))).result := by
  obtain ⟨all, run, -⟩ := ha
  rw [run_seq_of_some run]
  exact hb.mapTrees _

theorem subset_stray : [Sight.char '('] ⊆ strayOpenings := by
  intro s hs
  obtain rfl := List.mem_singleton.1 hs
  simp [strayOpenings]

/-- An item of a pattern has no initializer. -/
theorem Patterned.element {text : List Char} (h : Patterned limit fuel text) (hgap : IsGap gap)
    (closed : Closed closers rest) :
    Leads (behind (n + (gap ++ text).length) rest) strayOpenings
      (running limit fuel elementPattern (behind n (gap ++ text ++ rest))).result :=
  ((h hgap closed).before_nothing (opt_of_none (closed.refused (by decide)))
    fun _ at_ => opt_of_none (at_.refused (by decide))).mono subset_stray

theorem begins_name {rest : List Char} (name : IsName w) (ends : EndsName rest) :
    Begins (.name []) (w ++ rest) :=
  ⟨[], w ++ rest, rfl, .nil, name.firm rest, w, rest, rfl, name, ends, List.not_mem_nil⟩

theorem strays_char {c : Char} {cs : List Char} (mem : Sight.char c ∈ strayOpenings)
    (proper : Lexeme.isGap c = false ∧ c ≠ '/') (hgap : IsGap gap) :
    Opens strayOpenings (gap ++ c :: cs) :=
  ⟨_, mem, (begins_char proper.1 proper.2 cs).gap hgap⟩

theorem strays_name (name : IsName w) (ends : EndsName rest) (hgap : IsGap gap) :
    Opens strayOpenings (gap ++ (w ++ rest)) :=
  ⟨_, by simp [strayOpenings], (begins_name name ends).gap hgap⟩

theorem strays_string (h : IsString w) (hgap : IsGap gap) :
    Opens strayOpenings (gap ++ w ++ rest) :=
  (h.opens hgap).mono fun s hs => by simp [strayOpenings, hs]

theorem IsValue.strays {text : List Char} (h : IsValue text) (hgap : IsGap gap)
    (closed : Closed closers rest) : Opens strayOpenings (gap ++ text ++ rest) := by
  cases h with
  | string h => exact strays_string h hgap
  | number h => exact (h.opens hgap).mono fun s hs => by simp [strayOpenings, hs]
  | @signed s g w sign _ _ =>
      rw [List.append_assoc, List.cons_append]
      obtain rfl | rfl : s = '-' ∨ s = '+' := by simpa using sign
      all_goals exact strays_char (by simp [strayOpenings]) (by decide) hgap
  | constant h =>
      rw [List.append_assoc]
      exact strays_name (isName_constant h) closed.endsName hgap
  | function =>
      rw [List.append_assoc]
      exact strays_char (c := '(') (by simp [strayOpenings]) (by decide) hgap
  | action =>
      rw [List.append_assoc, List.append_assoc]
      exact strays_name isName_action (endsName_of_char (by decide) (by decide)) hgap
  | array =>
      rw [List.append_assoc]
      exact strays_char (by simp [strayOpenings]) (by decide) hgap
  | object =>
      rw [List.append_assoc]
      exact strays_char (by simp [strayOpenings]) (by decide) hgap

def keyOpenings : List Sight := quoteSights ++ [.name []]

theorem IsKey.opens (h : IsKey w) (hgap : IsGap gap) :
    Opens keyOpenings (gap ++ w ++ ':' :: rest) := by
  obtain name | string := h
  · rw [List.append_assoc]
    exact ⟨.name [], by simp [keyOpenings],
      (begins_name name (endsName_of_char (by decide) (by decide))).gap hgap⟩
  · exact (string.opens hgap).mono fun s hs => by simp [keyOpenings, hs]

theorem keyOpenings_stray : keyOpenings ⊆ strayOpenings := by
  intro s hs
  simp only [keyOpenings, strayOpenings, List.mem_append] at hs ⊢
  obtain hs | hs := hs <;> simp [hs]

/-! ### Items -/

theorem hole_strays {item : Rule} {tail : List Char}
    (bars : ∀ c ∈ closers, (Sight.char c).bars item = true) :
    (Slot.hole tail).Strays limit fuel item := by
  intro n rest closed
  have none : (running limit fuel (.opt item) (behind n rest)).result = some ([], behind n rest) :=
    opt_of_none (closed.refused bars)
  show Leads _ _ (running limit fuel (.opt item) (behind n rest)).result
  rw [none]
  exact .whole []

theorem element_strays {s : Slot} (fits : s.Fits Unkeyed)
    (values : ∀ c, s.core? = some c → IsValue c ∧ Patterned limit fuel c) :
    s.Strays limit fuel elementPattern := by
  cases s with
  | hole => exact hole_strays (by decide)
  | item lead key core tail =>
      intro n rest closed
      obtain ⟨hgap, rfl, -⟩ := fits
      obtain ⟨value, patterned⟩ := values core rfl
      exact (patterned.element hgap closed).opt (value.strays hgap closed).at

def memberPattern : Rule :=
  .node .restPattern (mark "..." ++ .ref .pattern) <|>
    .node .pairPattern (.label .key propertyName ++ mark ":" ++ elementPattern) <|>
    .node .assignmentPattern (shorthandProperty ++ initializer) <|> shorthandProperty

/-- A key alone is read up to its colon, or not at all. -/
theorem shorthand_cases (key : IsKey w) (hgap : IsGap gap) {o : Option (List Tree × Cursor)}
    (read : (running limit fuel shorthandProperty (behind n (gap ++ w ++ ':' :: rest))).result = o) :
    o = none ∨ ∃ ts c, o = some (ts, c) ∧ At [.char ':'] c := by
  subst read
  obtain name | string := key
  · have ends : EndsName (':' :: rest) := endsName_of_char (by decide) (by decide)
    by_cases reserved : String.ofList w ∈ reservedPropertyWords
    · have begins : Begins (.word (String.ofList w)) (gap ++ w ++ ':' :: rest) := by
        have := begins_word (w := String.ofList w) (by simpa using name) ends
        rw [String.toList_ofList] at this
        rw [List.append_assoc]
        exact this.gap hgap
      have bars : (Sight.word (String.ofList w)).bars shorthandProperty = true := by
        show (reservedPropertyWords.contains (String.ofList w)) = true
        simpa using reserved
      exact .inl (begins.refused bars)
    · obtain ⟨all, run, -⟩ := @accepts_name limit fuel n _ _ _ .shorthandProperty _ rfl hgap name
        ends reserved
      exact .inr ⟨_, _, run, Opens.at ⟨.char ':', List.mem_singleton_self _,
        begins_char (by decide) (by decide) rest⟩⟩
  · exact .inl ((string.opens hgap).refused (by decide))

theorem pairPattern_leads {core : List Char} (key : IsKey w) (hgap : IsGap gap)
    (patterned : Patterned limit fuel core) (closed : Closed closers rest) :
    Leads (behind (n + (gap ++ (w ++ [':', ' '] ++ core)).length) rest) strayOpenings
      (running limit fuel (.node .pairPattern (.label .key propertyName ++ mark ":" ++
        elementPattern)) (behind n (gap ++ w ++ ':' :: (' ' :: core ++ rest)))).result := by
  obtain ⟨k, kind, name⟩ := @accepts_key limit fuel n (' ' :: core ++ rest) _ _
    hgap key
  have colon : Accepts limit fuel (mark ":") (n + (gap ++ w).length) [':'] (' ' :: core ++ rest) _ :=
    accepts_single rfl (by decide)
  have value := patterned.element (n := n + (gap ++ w ++ [':']).length) isGap_blank closed
  have leads := ((name.label .key).seq colon.passes).leads value
  have place : n + (gap ++ w ++ [':']).length + ([' '] ++ core).length =
      n + (gap ++ (w ++ [':', ' '] ++ core)).length := by
    simp only [List.length_append, List.length_cons, List.length_nil]
    omega
  rw [place, List.append_assoc (gap ++ w)] at leads
  exact leads.node .pairPattern

theorem member_strays {s : Slot} (fits : s.Fits Keyed)
    (values : ∀ c, s.core? = some c → Patterned limit fuel c) :
    s.Strays limit fuel memberPattern := by
  cases s with
  | hole => exact hole_strays (by decide)
  | item lead key core tail =>
      intro n rest closed
      obtain ⟨hgap, ⟨w, rfl, key⟩, -⟩ := fits
      have opens := @IsKey.opens (' ' :: core ++ rest) _ _ key hgap
      have text : (Slot.item lead (some w) core tail).text ++ rest =
          lead ++ w ++ ':' :: (' ' :: core ++ rest) := by
        simp [Slot.text, Slot.lead]
      rw [text]
      refine Leads.opt ?_ (opens.mono keyOpenings_stray).at
      refine .or (.of_none (opens.refused (by decide)))
        (.or (pairPattern_leads key hgap (values core rfl) closed) (.or (.of_none ?_) ?_))
      · refine node_of_none ?_ _
        obtain none | ⟨ts, c, some_, at_⟩ := shorthand_cases key hgap rfl
        · exact run_seq_of_none none
        · rw [run_seq_of_some some_, at_.refused (by decide)]
          rfl
      · generalize read : (running limit fuel shorthandProperty _).result = o
        obtain rfl | ⟨ts, c, rfl, at_⟩ := shorthand_cases key hgap read
        · exact .nowhere
        · exact .short ts (at_.mono fun s hs => by
            obtain rfl := List.mem_singleton.1 hs
            simp [strayOpenings])

end

/-- A number may begin with a point, but not with three. -/
theorem IsNumber.afterDots {w rest : List Char} (h : IsNumber w) :
    Text.afterStart? "...".toList (w ++ rest) = none := by
  have reads := h.reads [] nofun
  rw [List.append_nil] at reads
  obtain ⟨c, cs, rfl, start⟩ := h.start
  obtain digit | rfl := start
  · have ne : '.' ≠ c := by
      rintro rfl
      exact absurd digit (by decide)
    simp [Text.afterStart?, ne]
  · cases cs with
    | nil => exact absurd reads (by decide)
    | cons d ds =>
        have ne : '.' ≠ d := by
          rintro rfl
          have none : Lexeme.number? ('.' :: '.' :: ds) = none := rfl
          rw [none] at reads
          contradiction
        simp [Text.afterStart?, ne]

theorem IsNumber.noDots {limit fuel n : Nat} {gap w rest : List Char} (h : IsNumber w)
    (hgap : IsGap gap) :
    (running limit fuel (mark "...") (behind n (gap ++ w ++ rest))).result = none := by
  have ahead := Cursor.ahead_behind hgap (h.firm rest) n
  rw [← List.append_assoc] at ahead
  rw [running, mark, Rule.run, Cursor.read, Cursor.find, ahead, Lexeme.mark?, h.afterDots]
  rfl

theorem IsValue.patterned {text : List Char} (h : IsValue text) (limit fuel : Nat) :
    Patterned limit fuel text := by
  induction h generalizing fuel with
  | string h =>
      intro g rest n hgap closed
      exact .of_none ((h.opens hgap).refused (by decide))
  | number h =>
      intro g rest n hgap closed
      cases fuel with
      | zero => exact .nowhere
      | succ fuel =>
          have opens := @IsNumber.opens rest _ _ h hgap
          show Leads _ _ (running limit fuel pattern _).result
          exact .or (.of_none (opens.refused (by decide)))
            (.or (.of_none (opens.refused (by decide)))
              (.or (.of_none (opens.refused (by decide)))
                (.of_none (node_of_none (run_seq_of_none (h.noDots hgap)) _))))
  | @signed s inner w sign _ _ =>
      intro g rest n hgap closed
      rw [List.append_assoc, List.cons_append]
      obtain rfl | rfl : s = '-' ∨ s = '+' := by simpa using sign
      all_goals
        exact .of_none (((begins_char (by decide) (by decide) _).gap hgap).refused (by decide))
  | @constant w h =>
      intro g rest n hgap closed
      have opens : Opens (constants.map .word) (g ++ w.toList ++ rest) := by
        rw [List.append_assoc]
        exact ⟨_, List.mem_map_of_mem h,
          (begins_word (isName_constant h) closed.endsName).gap hgap⟩
      exact .of_none (opens.refused (by decide))
  | function =>
      intro g rest n hgap closed
      rw [List.append_assoc]
      exact .of_none (Begins.refused (s := .char '(')
        ((begins_char (by decide) (by decide) _).gap hgap) (by decide))
  | @action w h =>
      intro g rest n hgap closed
      cases fuel with
      | zero => exact .nowhere
      | succ fuel =>
          have ends : EndsName ('(' :: (w ++ [')'] ++ rest)) :=
            endsName_of_char (by decide) (by decide)
          have name : Accepts limit fuel identifier n (g ++ "action".toList) _ _ :=
            accepts_name rfl hgap isName_action ends (by decide)
          obtain ⟨all, run, -⟩ := name
          have text : g ++ ("action".toList ++ '(' :: (w ++ [')'])) ++ rest =
              g ++ "action".toList ++ '(' :: (w ++ [')'] ++ rest) := by simp
          show Leads _ _ (running limit fuel pattern _).result
          rw [text, pattern, run_alt_of_some run]
          exact .short _ (Opens.at ⟨.char '(', List.mem_singleton_self _,
            begins_char (by decide) (by decide) _⟩)
  | @array s ss slots values ih =>
      intro g rest n hgap closed
      cases fuel with
      | zero => exact .nowhere
      | succ fuel =>
          have begins : Begins (.char '[') (g ++ '[' :: (Slot.body s ss ++ [']']) ++ rest) := by
            rw [List.append_assoc]
            exact (begins_char (by decide) (by decide) _).gap hgap
          have list := @brackets_lead limit fuel n elementPattern ']' rest g .arrayPattern _ "[" "]"
            s ss _ rfl (by decide) rfl (by decide) (by decide) (by decide)
            (fun t ht => element_strays (slots t ht) fun c core =>
              ⟨values t ht c core, ih t ht c core fuel⟩) slots hgap
          refine Leads.mono ?_ (List.nil_subset _)
          show Leads _ _ (running limit fuel pattern _).result
          exact .or (.of_none (begins.refused (by decide)))
            (.or (.of_none (begins.refused (by decide)))
              (.or list (.of_none (begins.refused (by decide)))))
  | @object s ss slots values ih =>
      intro g rest n hgap closed
      cases fuel with
      | zero => exact .nowhere
      | succ fuel =>
          have begins : Begins (.char '\x7b') (g ++ '\x7b' :: (Slot.body s ss ++ ['\x7d']) ++ rest) := by
            rw [List.append_assoc]
            exact (begins_char (by decide) (by decide) _).gap hgap
          have list := @brackets_lead limit fuel n memberPattern '\x7d' rest g .objectPattern _
            "\x7b" "\x7d" s ss _ rfl (by decide) rfl (by decide) (by decide)
            (by decide)
            (fun t ht => member_strays (slots t ht) fun c core => ih t ht c core fuel) slots hgap
          refine Leads.mono ?_ (List.nil_subset _)
          show Leads _ _ (running limit fuel pattern _).result
          exact .or (.of_none (begins.refused (by decide))) (.or list
            (.or (.of_none (begins.refused (by decide)))
              (.of_none (begins.refused (by decide)))))

/-! ## Values in parentheses -/

def valueOpenings : List Sight := openings ++ ['-', '+'].map .char

section

variable {limit fuel n : Nat} {v rest gap lead tail : List Char}

theorem IsValue.opens (h : IsValue v) (hgap : IsGap gap) (closed : Closed closers rest) :
    Opens valueOpenings (gap ++ v ++ rest) := by
  have char {c : Char} {cs : List Char} (mem : Sight.char c ∈ valueOpenings)
      (proper : Lexeme.isGap c = false ∧ c ≠ '/') : Opens valueOpenings (gap ++ c :: cs ++ rest) := by
    rw [List.append_assoc]
    exact ⟨_, mem, (begins_char proper.1 proper.2 _).gap hgap⟩
  cases h with
  | string h =>
      exact (h.opens hgap).mono fun s hs => by simp [valueOpenings, openings, inertOpenings, hs]
  | number h =>
      exact (h.opens hgap).mono fun s hs => by simp [valueOpenings, openings, inertOpenings, hs]
  | @signed s g w sign _ _ =>
      obtain rfl | rfl : s = '-' ∨ s = '+' := by simpa using sign
      all_goals exact char (by simp [valueOpenings]) (by decide)
  | @constant w h =>
      rw [List.append_assoc]
      exact ⟨.word w, by simp [valueOpenings, openings, inertOpenings, h],
        (begins_word (isName_constant h) closed.endsName).gap hgap⟩
  | function => exact char (c := '(') (by simp [valueOpenings, openings]) (by decide)
  | action =>
      rw [List.append_assoc, List.append_assoc]
      exact ⟨.word "action", by simp [valueOpenings, openings],
        (begins_word isName_action (endsName_of_char (by decide) (by decide))).gap hgap⟩
  | array => exact char (by simp [valueOpenings, openings, inertOpenings]) (by decide)
  | object => exact char (by simp [valueOpenings, openings, inertOpenings]) (by decide)

theorem Leads.seq {a b : Rule} {c mid stop : Cursor} {sights : List Sight}
    (h : Leads mid sights (running limit fuel a c).result)
    (whole : Leads stop [] (running limit fuel b mid).result)
    (short : ∀ d, At sights d → (running limit fuel b d).result = none) :
    Leads stop [] (running limit fuel (a ++ b) c).result := by
  generalize read : (running limit fuel a c).result = o at h
  cases h with
  | nowhere => exact .of_none (run_seq_of_none read)
  | whole ts =>
      rw [run_seq_of_some read]
      exact whole.mapTrees _
  | @short ts d at_ =>
      rw [run_seq_of_some read, short d at_]
      exact .nowhere

theorem Leads.after_nothing {a b : Rule} {c stop : Cursor} {sights : List Sight}
    (ha : (running limit fuel a c).result = some ([], c))
    (hb : Leads stop sights (running limit fuel b c).result) :
    Leads stop sights (running limit fuel (a ++ b) c).result := by
  rw [run_seq_of_some ha]
  exact hb.mapTrees _

theorem IsValue.parameter_leads (h : IsValue v) (hgap : IsGap gap) (closed : Closed closers rest) :
    Leads (behind (n + (gap ++ v).length) rest) [.char '(']
      (running limit fuel parameter (behind n (gap ++ v ++ rest))).result := by
  have opens := h.opens hgap closed
  have prefixes : (running limit fuel (.many decorator ++ .opt accessModifier ++
      .opt (modifier "override") ++ .opt (modifier "readonly"))
      (behind n (gap ++ v ++ rest))).result = some ([], behind n (gap ++ v ++ rest)) :=
    nothing_seq (nothing_seq (nothing_seq (many_of_none (opens.refused (by decide)))
      (opt_of_none (opens.refused (by decide))))
      (opt_of_none (opens.refused (by decide))))
      (opt_of_none (opens.refused (by decide)))
  have name : Leads (behind (n + (gap ++ v).length) rest) [.char '('] (running limit fuel
      (.label .name (wordNode "this" .this <|> .ref .pattern))
      (behind n (gap ++ v ++ rest))).result :=
    .label (.or (.of_none (opens.refused (by decide))) (h.patterned limit fuel hgap closed)) _
  have marked := Leads.before_nothing (Leads.after_nothing prefixes name)
    (b := .opt (mark "?")) (opt_of_none (closed.refused (by decide)))
    fun _ at_ => opt_of_none (at_.refused (by decide))
  have typed := marked.before_nothing (b := annotated)
    (opt_of_none (closed.refused (by decide)))
    fun _ at_ => opt_of_none (at_.refused (by decide))
  exact (typed.before_nothing (b := .opt initializer)
    (opt_of_none (closed.refused (by decide)))
    fun _ at_ => opt_of_none (at_.refused (by decide))).node .parameter

theorem IsValue.head_leads (h : IsValue v) (hgap : IsGap gap) (hlead : IsGap lead)
    (htail : IsGap tail) (ends : Begins (.char ';') rest) :
    Leads (behind (n + (gap ++ '(' :: (lead ++ v ++ (tail ++ [')']))).length) rest) []
      (running limit fuel (identifier <|> callHead)
        (behind n (gap ++ '(' :: (lead ++ v ++ (tail ++ [')'])) ++ rest))).result := by
  have text : gap ++ '(' :: (lead ++ v ++ (tail ++ [')'])) ++ rest =
      gap ++ "(".toList ++ (lead ++ v ++ (tail ++ [')'] ++ rest)) := by simp
  have paren : Begins (.char '(') (gap ++ '(' :: (lead ++ v ++ (tail ++ [')'])) ++ rest) := by
    rw [List.append_assoc]
    exact (begins_char (by decide) (by decide) _).gap hgap
  have close : Begins (.char ')') (tail ++ [')'] ++ rest) := by
    rw [List.append_assoc]
    exact (begins_char (by decide) (by decide) _).gap htail
  have closed : Closed closers (tail ++ [')'] ++ rest) := ⟨')', by decide, close⟩
  have opening : Accepts limit fuel (mark "(") n (gap ++ "(".toList)
      (lead ++ v ++ (tail ++ [')'] ++ rest)) _ := accepts_mark hgap rfl (by decide)
  obtain ⟨all, closing, -⟩ := @accepts_mark limit fuel
    (n + (gap ++ "(".toList).length + (lead ++ v).length) tail rest ")" _ _ htail rfl (by decide)
  have list := ((@IsValue.parameter_leads limit fuel
    (n + (gap ++ "(".toList).length) _ _ _ h hlead closed).before_nothing
      (b := .many (mark "," ++ parameter)) (many_of_none (close.refused (by decide)))
      fun _ at_ => many_of_none (at_.refused (by decide))).before_nothing
      (b := .opt (mark ",")) (opt_of_none (close.refused (by decide)))
      fun _ at_ => opt_of_none (at_.refused (by decide))
  have inside := (@Leads.mono _ _ _ (.char '(' :: valueOpenings) list (by simp)).opt
    ((h.opens hlead closed).mono (List.subset_cons_self _ _)).at
  have place : n + (gap ++ "(".toList).length + (lead ++ v).length + (tail ++ ")".toList).length =
      n + (gap ++ '(' :: (lead ++ v ++ (tail ++ [')']))).length := by
    simp only [List.length_append, List.length_cons, List.length_nil,
      show "(".toList.length = 1 from rfl, show ")".toList.length = 1 from rfl]
    omega
  rw [place] at closing
  have parameters := (@Leads.seq _ _ _ (mark ")") _ _ (behind _ rest) _ (opening.leads inside)
    (by rw [show tail ++ [')'] ++ rest = tail ++ ")".toList ++ rest from rfl, closing]; exact .whole _)
    fun _ at_ => at_.refused (by decide)).node .parameters
  rw [← text] at parameters
  have head := (Leads.after_nothing (a := .opt (.label .typeArguments typeParameters))
    (opt_of_none (paren.refused (by decide))) (parameters.label .parameters)).before_nothing
      (b := .opt (.label .returnType returnType)) (opt_of_none (ends.refused (by decide)))
      (by rintro c ⟨-, s, hs, -⟩; cases hs)
  exact .or (.of_none (paren.refused (by decide))) head

theorem IsValue.noArrow (h : IsValue v) (hgap : IsGap gap) (hlead : IsGap lead)
    (htail : IsGap tail) (ends : Begins (.char ';') rest) :
    (running limit fuel arrow
      (behind n (gap ++ '(' :: (lead ++ v ++ (tail ++ [')'])) ++ rest))).result = none := by
  have paren : Begins (.char '(') (gap ++ '(' :: (lead ++ v ++ (tail ++ [')'])) ++ rest) := by
    rw [List.append_assoc]
    exact (begins_char (by decide) (by decide) _).gap hgap
  have leads := @IsValue.head_leads limit fuel n _ _ _ _ _ h hgap hlead htail ends
  rw [arrow, run_alt_of_none (paren.refused (by decide))]
  refine node_of_none ?_ _
  generalize read : (running limit fuel (identifier <|> callHead) _).result = o at leads
  cases leads with
  | nowhere => exact run_seq_of_none read
  | whole ts =>
      rw [run_seq_of_some read, ends.refused (by decide)]
      rfl
  | short ts at_ =>
      obtain ⟨-, s, hs, -⟩ := at_
      cases hs

end

end PropStories.Tsx
