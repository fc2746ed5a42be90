import PropStories.Proofs.Tsx.Gaps
import PropStories.Proofs.Tsx.Refusal

/-!
# What a rule accepts

A rule accepts a text in front of another one if reading it leads from the beginning of the text to
its end. The nodes that it gives are kept, the comments between them are not. The ways in which
rules are put together are mirrored here: an alternative is taken where those before it are
refused, and what may be missing is missing where it is refused.
-/

namespace PropStories.Tsx

open Cursor (behind)

/-! ## Comments between nodes -/

def Comments (ts : List Tree) : Prop := ∀ t ∈ ts, t.kind = .comment ∧ t.label? = none

theorem Comments.isExtra {ts : List Tree} (h : Comments ts) {t : Tree} (ht : t ∈ ts) :
    t.isExtra = true := by
  rw [Tree.isExtra, (h t ht).1]
  rfl

theorem scanGap_comments (inside n : Nat) (cs : List Char) (br : Bool) :
    Comments (Cursor.scanGap [] inside n cs br).trees := by
  fun_induction Cursor.scanGap [] inside n cs br with
  | case1 => exact List.forall_mem_nil _
  | case2 inside n c cs br ih => exact ih
  | case3 n c cs br last found => simp [Cursor.skipFrom?] at found
  | case4 n c cs br _ _ ih => exact ih
  | case5 n c cs br _ _ len _ g ih =>
      intro t ht
      rcases List.mem_cons.1 ht with rfl | ht
      · exact ⟨rfl, rfl⟩
      · exact ih t ht
  | case6 => exact List.forall_mem_nil _

theorem comments_behind (n : Nat) (cs : List Char) : Comments (behind n cs).gap :=
  scanGap_comments _ _ _ _

/-- The nodes `ts`, with comments between them, from `start` to `stop`. -/
structure Frames (all ts : List Tree) (start stop : Nat) : Prop where
  nodes : all.filter (!·.isExtra) = ts
  comments : Comments (all.filter Tree.isExtra)
  first : ∃ t, all.head? = some t ∧ t.isExtra = false ∧ t.start = start
  last : ∃ t, all.getLast? = some t ∧ t.isExtra = false ∧ t.stop = stop

namespace Frames

variable {all more ts us : List Tree} {start stop a b : Nat}

theorem leaf {k : Kind} (h : k.isExtra = false) (l : Option Label) (s e : Nat) (cs : List Tree) :
    Frames [.node k l s e cs] [.node k l s e cs] s e where
  nodes := by simp [Tree.isExtra, Tree.kind, h]
  comments := by simp [Tree.isExtra, Tree.kind, h, Comments]
  first := ⟨_, rfl, h, rfl⟩
  last := ⟨_, rfl, h, rfl⟩

theorem append (h : Frames all ts start a) {gap : List Tree} (between : Comments gap)
    (h' : Frames more us b stop) : Frames (all ++ (gap ++ more)) (ts ++ us) start stop where
  nodes := by
    have none : gap.filter (!·.isExtra) = [] :=
      List.filter_eq_nil_iff.2 fun t ht => by simp [between.isExtra ht]
    rw [List.filter_append, List.filter_append, h.nodes, none, h'.nodes, List.nil_append]
  comments := by
    intro t ht
    rw [List.filter_append, List.filter_append, List.mem_append, List.mem_append] at ht
    rcases ht with ht | ht | ht
    · exact h.comments t ht
    · exact between t (List.mem_filter.1 ht).1
    · exact h'.comments t ht
  first := by
    obtain ⟨t, head, proper⟩ := h.first
    exact ⟨t, by rw [List.head?_append, head]; rfl, proper⟩
  last := by
    obtain ⟨t, last, proper⟩ := h'.last
    exact ⟨t, by simp [List.getLast?_append, last], proper⟩

theorem labelled (h : Frames all ts start stop) (l : Label) :
    Frames (Tree.labelled l all) (ts.map (Tree.withLabel (some l))) start stop where
  nodes := by
    have same (t : Tree) : (t.withLabel (some l)).isExtra = t.isExtra := by cases t; rfl
    rw [← h.nodes, Tree.labelled]
    generalize all = all
    induction all with
    | nil => rfl
    | cons t ts ih =>
        cases extra : t.isExtra <;> simp [extra, same, ih]
  comments := by
    have same : (Tree.labelled l all).filter Tree.isExtra = all.filter Tree.isExtra := by
      rw [Tree.labelled]
      generalize all = all
      induction all with
      | nil => rfl
      | cons t ts ih =>
          have plain : (t.withLabel (some l)).isExtra = t.isExtra := by cases t; rfl
          cases extra : t.isExtra <;> simp [extra, plain, ih]
    exact same ▸ h.comments
  first := by
    obtain ⟨t, head, proper, place⟩ := h.first
    refine ⟨t.withLabel (some l), ?_, ?_, ?_⟩
    · simp [Tree.labelled, head, proper]
    · cases t; exact proper
    · cases t; exact place
  last := by
    obtain ⟨t, last, proper, place⟩ := h.last
    refine ⟨t.withLabel (some l), ?_, ?_, ?_⟩
    · simp [Tree.labelled, last, proper]
    · cases t; exact proper
    · cases t; exact place

theorem single {t : Tree} (h : Frames all [t] start stop) :
    all = [t] ∧ t.start = start ∧ t.stop = stop := by
  obtain ⟨first, head, proper, begins⟩ := h.first
  obtain ⟨last, ending, proper', ends⟩ := h.last
  obtain ⟨rest, rfl⟩ := List.head?_eq_some_iff.1 head
  have nodes := h.nodes
  rw [List.filter_cons_of_pos (by simp [proper])] at nodes
  obtain ⟨rfl, none⟩ := List.cons.inj nodes
  rcases List.eq_nil_or_concat rest with rfl | ⟨rest, u, rfl⟩
  · obtain rfl := Option.some.inj ending
    exact ⟨rfl, begins, ends⟩
  · rw [List.concat_eq_append] at ending none
    rw [← List.cons_append, List.getLast?_concat] at ending
    obtain rfl := Option.some.inj ending
    simp [proper'] at none

theorem wrap (h : Frames all ts start stop) {gap : List Tree} (comments : Comments gap)
    (k : Kind) (place : Nat) :
    Tree.wrap k place (gap ++ all) = gap ++ [.node k none start stop all] := by
  obtain ⟨t, head, proper, place_eq⟩ := h.first
  obtain ⟨u, last, -, stop_eq⟩ := h.last
  obtain ⟨rest, rfl⟩ := List.head?_eq_some_iff.1 head
  have extras : ∀ t ∈ gap, t.isExtra = true := fun _ ht => comments.isExtra ht
  have drop : (gap ++ t :: rest).dropWhile Tree.isExtra = t :: rest := by
    rw [List.dropWhile_append_of_pos extras, List.dropWhile_cons_of_neg (by simp [proper])]
  have take : (gap ++ t :: rest).takeWhile Tree.isExtra = gap := by
    rw [List.takeWhile_append_of_pos extras, List.takeWhile_cons_of_neg (by simp [proper]),
      List.append_nil]
  have last_eq : (rest.getLast?).getD t = u := by
    rw [List.getLast?_cons] at last
    exact Option.some.inj last
  rw [Tree.wrap, drop]
  simp only
  rw [take, last_eq, place_eq, stop_eq]

/-! ### Children of a node over the trees -/

theorem isExtra_of_mem (h : Frames all ts start stop) {t : Tree} (ht : t ∈ ts) :
    t.isExtra = false := by
  rw [← h.nodes] at ht
  simpa using (List.mem_filter.1 ht).2

theorem filter (h : Frames all ts start stop) {p : Tree → Bool}
    (plain : ∀ t : Tree, t.kind = .comment → t.label? = none → p t = false) :
    all.filter p = ts.filter p := by
  obtain ⟨rfl, comments⟩ := And.intro h.nodes h.comments
  rw [List.filter_filter]
  refine List.filter_congr fun t ht => ?_
  cases extra : t.isExtra with
  | true =>
      obtain ⟨kind, label⟩ := comments t (List.mem_filter.2 ⟨ht, extra⟩)
      rw [plain t kind label]
      rfl
  | false => rw [Bool.not_false, Bool.and_true]

theorem find?_label (h : Frames all ts start stop) (l : Label) :
    all.find? (·.label? == some l) = ts.find? (·.label? == some l) := by
  rw [← List.head?_filter, ← List.head?_filter,
    h.filter fun t _ label => by rw [label]; rfl]

theorem parts (h : Frames all ts start stop) (k : Kind) (l : Option Label) (s e : Nat) :
    (Tree.node k l s e all).parts = ts.filter (·.kind.isNamed) := by
  have proper : ∀ t ∈ ts, (t.kind != .comment) = true := by
    intro t ht
    rw [bne_iff_ne]
    intro comment
    have := h.isExtra_of_mem ht
    rw [Tree.isExtra, comment] at this
    contradiction
  rw [Tree.parts, Tree.namedChildren, Tree.children, List.filter_filter,
    h.filter fun t comment _ => by rw [comment]; rfl]
  exact List.filter_congr fun t ht => by rw [proper t ht, Bool.true_and]

end Frames

/-! ## Reading to the end of a text -/

/-- Read behind `n`, the text leads to `rest` and gives the nodes `ts`. -/
def Reaches (read : Cursor → Outcome) (n : Nat) (text rest : List Char) (ts : List Tree) : Prop :=
  ∃ all, (read (behind n (text ++ rest))).result =
      some ((behind n (text ++ rest)).gap ++ all, behind (n + text.length) rest) ∧
    Frames all ts (behind n (text ++ rest)).next (n + text.length)

/-- So it does, or the text is empty and nothing is read. -/
def MayReach (read : Cursor → Outcome) (n : Nat) (text rest : List Char) (ts : List Tree) : Prop :=
  (text = [] ∧ ts = [] ∧ (read (behind n rest)).result = some ([], behind n rest)) ∨
    Reaches read n text rest ts

abbrev running (limit fuel : Nat) : Rule → Cursor → Outcome :=
  Rule.run limit (Rule.read grammar limit fuel)

/-- Read behind `n`, the rule takes `text` in front of `rest` and gives the nodes `ts`. -/
abbrev Accepts (limit fuel : Nat) (r : Rule) : Nat → List Char → List Char → List Tree → Prop :=
  Reaches (running limit fuel r)

/-- So it does, or the text is empty and the rule reads nothing. -/
abbrev Passes (limit fuel : Nat) (r : Rule) : Nat → List Char → List Char → List Tree → Prop :=
  MayReach (running limit fuel r)

section

variable {limit fuel n : Nat} {a b r : Rule} {text more rest : List Char} {ts us : List Tree}

/-! ## Tokens -/

theorem accepts_token {t : Terminal} {k : Kind} {g w : List Char} (gap : IsGap g)
    (firm : Firm (w ++ rest)) (kind : k.isExtra = false) (length : w ≠ [])
    (found : ∀ c : Cursor, c.ahead = w ++ rest → c.find t = .token w.length) :
    Accepts limit fuel (.token t k) n (g ++ w) rest
      [.node k none (n + g.length) (n + (g ++ w).length) []] := by
  have ahead := Cursor.ahead_behind gap firm n
  have next := Cursor.next_behind gap firm n
  rw [← List.append_assoc] at ahead next
  refine ⟨[.node k none (n + g.length) (n + (g ++ w).length) []], ?_, ?_⟩
  · have positive : (w.length == 0) = false := by simpa using length
    have place : n + g.length + w.length = n + (g ++ w).length := by
      rw [List.length_append, Nat.add_assoc]
    rw [running, Rule.run, Cursor.read, found _ ahead]
    simp only [Cursor.consume, positive, next, ahead, List.drop_left, place, Cursor.behind_repairs]
    rfl
  · rw [next]
    exact .leaf kind _ _ _ _

/-! ## Compound rules -/

theorem Reaches.passes {read : Cursor → Outcome} (h : Reaches read n text rest ts) :
    MayReach read n text rest ts := .inr h

theorem Reaches.congr {read read' : Cursor → Outcome} (h : Reaches read n text rest ts)
    (same : (read' (behind n (text ++ rest))).result = (read (behind n (text ++ rest))).result) :
    Reaches read' n text rest ts := by
  obtain ⟨all, run, frames⟩ := h
  exact ⟨all, same.trans run, frames⟩

theorem run_seq_of_some {c c' : Cursor} (h : (running limit fuel a c).result = some (ts, c')) :
    (running limit fuel (a ++ b) c).result =
      ((running limit fuel b c').result.map fun (us, c) => (ts ++ us, c)) := by
  show (Rule.run _ _ (.seq a b) _).result = _
  rw [Rule.run]
  simp only [running] at h
  simp only [h]
  rfl

theorem Reaches.before_nothing (ha : Accepts limit fuel a n text rest ts)
    (hb : (running limit fuel b (behind (n + text.length) rest)).result =
      some ([], behind (n + text.length) rest)) : Accepts limit fuel (a ++ b) n text rest ts := by
  obtain ⟨all, run, frames⟩ := ha
  refine ⟨all, ?_, frames⟩
  rw [run_seq_of_some run, hb, Option.map_some]
  simp only [List.append_nil]

theorem nothing_seq {c : Cursor} (ha : (running limit fuel a c).result = some ([], c))
    (hb : (running limit fuel b c).result = some ([], c)) :
    (running limit fuel (a ++ b) c).result = some ([], c) := by
  rw [run_seq_of_some ha, hb]
  rfl

theorem Reaches.seq (ha : Accepts limit fuel a n text (more ++ rest) ts)
    (hb : Passes limit fuel b (n + text.length) more rest us) :
    Accepts limit fuel (a ++ b) n (text ++ more) rest (ts ++ us) := by
  obtain ⟨rfl, rfl, stays⟩ | ⟨all', run', frames'⟩ := hb
  · rw [List.append_nil, List.append_nil]
    exact ha.before_nothing stays
  · obtain ⟨all, run, frames⟩ := ha
    have place : n + text.length + more.length = n + (text ++ more).length := by
      rw [List.length_append, Nat.add_assoc]
    refine ⟨all ++ ((behind (n + text.length) (more ++ rest)).gap ++ all'), ?_, ?_⟩
    · rw [List.append_assoc, run_seq_of_some run, run', Option.map_some, place]
      simp only [List.append_assoc]
    · rw [List.append_assoc, ← place]
      exact frames.append (comments_behind _ _) frames'

theorem Reaches.after_nothing (ha : (running limit fuel a (behind n (text ++ rest))).result =
      some ([], behind n (text ++ rest))) (hb : Accepts limit fuel b n text rest ts) :
    Accepts limit fuel (a ++ b) n text rest ts := by
  refine hb.congr ?_
  rw [run_seq_of_some ha]
  simp

theorem MayReach.both (ha : Passes limit fuel a n text (more ++ rest) ts)
    (hb : Passes limit fuel b (n + text.length) more rest us) :
    Passes limit fuel (a ++ b) n (text ++ more) rest (ts ++ us) := by
  obtain ⟨rfl, rfl, stays⟩ | ha := ha
  · obtain ⟨rfl, rfl, stays'⟩ | hb := hb
    · exact .inl ⟨rfl, rfl, nothing_seq stays stays'⟩
    · exact .inr (.after_nothing stays hb)
  · exact .inr (ha.seq hb)

theorem refused_seq (ha : Accepts limit fuel a n text rest ts)
    (hb : (running limit fuel b (behind (n + text.length) rest)).result = none) :
    (running limit fuel (a ++ b) (behind n (text ++ rest))).result = none := by
  obtain ⟨all, run, -⟩ := ha
  rw [run_seq_of_some run, hb]
  rfl

theorem run_alt_of_none {c : Cursor} (h : (running limit fuel a c).result = none) :
    (running limit fuel (a <|> b) c).result = (running limit fuel b c).result := by
  show (Rule.run _ _ (.alt a b) _).result = _
  rw [Rule.run]
  simp only [running] at h
  simp only [h]
  rfl

theorem run_alt_of_some {c : Cursor} {x : List Tree × Cursor}
    (h : (running limit fuel a c).result = some x) :
    (running limit fuel (a <|> b) c).result = some x := by
  show (Rule.run _ _ (.alt a b) _).result = _
  rw [Rule.run]
  simp only [running] at h
  simp only [h]

theorem Reaches.or_left (ha : Accepts limit fuel a n text rest ts) :
    Accepts limit fuel (a <|> b) n text rest ts := by
  obtain ⟨all, run, frames⟩ := ha
  exact ⟨all, run_alt_of_some run, frames⟩

theorem Reaches.or_right (ha : (running limit fuel a (behind n (text ++ rest))).result = none)
    (hb : Accepts limit fuel b n text rest ts) : Accepts limit fuel (a <|> b) n text rest ts :=
  hb.congr (run_alt_of_none ha)

theorem Reaches.opt (ha : Accepts limit fuel a n text rest ts) :
    Accepts limit fuel (.opt a) n text rest ts := by
  obtain ⟨all, run, frames⟩ := ha
  refine ⟨all, ?_, frames⟩
  rw [running, Rule.run]
  simp only [running] at run
  simp only [run]

theorem Reaches.ref {m : Nonterminal} (h : Accepts limit fuel (grammar m) n text rest ts) :
    Accepts limit (fuel + 1) (.ref m) n text rest ts := h

theorem Reaches.label (h : Accepts limit fuel a n text rest ts) (l : Label) :
    Accepts limit fuel (.label l a) n text rest (ts.map (Tree.withLabel (some l))) := by
  obtain ⟨all, run, frames⟩ := h
  refine ⟨Tree.labelled l all, ?_, frames.labelled l⟩
  have gap : Tree.labelled l (behind n (text ++ rest)).gap = (behind n (text ++ rest)).gap := by
    rw [Tree.labelled]
    refine (List.map_congr_left fun t ht => ?_).trans (List.map_id _)
    simp [(comments_behind n (text ++ rest)).isExtra ht]
  rw [running, Rule.run, Outcome.mapTrees, run]
  simp only [Option.map_some, Tree.labelled, List.map_append] at gap ⊢
  rw [gap]

theorem Reaches.place {read : Cursor → Outcome} {n : Nat} {g w rest : List Char} {t : Tree}
    (h : Reaches read n (g ++ w) rest [t]) (gap : IsGap g) (firm : Firm (w ++ rest)) :
    t.start = n + g.length ∧ t.stop = n + (g ++ w).length := by
  obtain ⟨all, -, frames⟩ := h
  obtain ⟨-, start, stop⟩ := frames.single
  rw [List.append_assoc, Cursor.next_behind gap firm] at start
  exact ⟨start, stop⟩

theorem Reaches.node (h : Accepts limit fuel a n text rest ts) {k : Kind}
    (kind : k.isExtra = false) :
    ∃ all, Frames all ts (behind n (text ++ rest)).next (n + text.length) ∧
      Accepts limit fuel (.node k a) n text rest
        [.node k none (behind n (text ++ rest)).next (n + text.length) all] := by
  obtain ⟨all, run, frames⟩ := h
  refine ⟨all, frames, [.node k none (behind n (text ++ rest)).next (n + text.length) all],
    ?_, .leaf kind _ _ _ _⟩
  rw [running, Rule.run, Outcome.mapTrees, run]
  simp only [Option.map_some]
  rw [frames.wrap (comments_behind _ _)]

theorem node_of_none {c : Cursor} (h : (running limit fuel a c).result = none) (k : Kind) :
    (running limit fuel (.node k a) c).result = none := by
  simp only [running] at h
  rw [running, Rule.run, Outcome.mapTrees, h]
  rfl

/-! ## Repetitions -/

section

variable {step : Cursor → Outcome} {c next : Cursor}

theorem repeated_of_some (h : (step c).result = some (ts, next)) (moves : c.place < next.place)
    (times : Nat) : (Rule.repeated step (times + 1) c).result =
      (Rule.repeated step times next).result.map fun (us, d) => (ts ++ us, d) := by
  rw [Rule.repeated]
  simp only [h]
  rw [if_pos moves]
  rfl

theorem repeated_of_still (h : (step c).result = some (ts, next))
    (still : ¬ c.place < next.place) (times : Nat) :
    (Rule.repeated step (times + 1) c).result = some ([], c) := by
  rw [Rule.repeated]
  simp only [h]
  rw [if_neg still]
  rfl

theorem repeated_of_none (h : (step c).result = none) (times : Nat) :
    (Rule.repeated step times c).result = some ([], c) := by
  cases times with
  | zero => rfl
  | succ times =>
      rw [Rule.repeated]
      simp only [h]
      rfl

end

inductive Series (limit fuel : Nat) (r : Rule) (rest : List Char) :
    Nat → List Char → List Tree → Nat → Prop
  | stop {n : Nat} (refused : (running limit fuel r (behind n rest)).result = none) :
      Series limit fuel r rest n [] [] 0
  | step {n count : Nat} {text more : List Char} {ts us : List Tree} (some_ : text ≠ [])
      (first : Accepts limit fuel r n text (more ++ rest) ts)
      (next : Series limit fuel r rest (n + text.length) more us count) :
      Series limit fuel r rest n (text ++ more) (ts ++ us) (count + 1)

theorem Series.repeated {count times : Nat} (h : Series limit fuel r rest n text ts count)
    (enough : count ≤ times) :
    MayReach (Rule.repeated (running limit fuel r) times) n text rest ts := by
  induction h generalizing times with
  | stop refused =>
      exact .inl ⟨rfl, rfl, repeated_of_none refused times⟩
  | @step n count text more ts us some_ first next ih =>
      obtain ⟨times, rfl⟩ : ∃ t, times = t + 1 := ⟨times - 1, by omega⟩
      obtain ⟨all, run, frames⟩ := first
      have moves : n < n + text.length := Nat.lt_add_of_pos_right (List.length_pos_iff.2 some_)
      have step := repeated_of_some run moves times
      right
      obtain ⟨rfl, rfl, stays⟩ | ⟨all', run', frames'⟩ := ih (Nat.le_of_succ_le_succ enough)
      · rw [List.nil_append] at step frames
        simp only [List.append_nil]
        refine ⟨all, ?_, frames⟩
        rw [step, stays, Option.map_some]
        simp only [List.append_nil]
      · have place : n + text.length + more.length = n + (text ++ more).length := by
          rw [List.length_append, Nat.add_assoc]
        refine ⟨all ++ ((behind (n + text.length) (more ++ rest)).gap ++ all'), ?_, ?_⟩
        · rw [List.append_assoc, step, run', Option.map_some, place]
          simp only [List.append_assoc]
        · rw [List.append_assoc, ← place]
          exact frames.append (comments_behind _ _) frames'

theorem Series.many {count : Nat} (h : Series limit fuel r rest n text ts count)
    (enough : count ≤ limit) : Passes limit fuel (.many r) n text rest ts := h.repeated enough

/-! ## Left-nested constructions -/

theorem Reaches.grow {heads : List Kind} (h : Accepts limit fuel a n text rest ts)
    (stop : (running limit fuel b (behind (n + text.length) rest)).result = none) :
    Accepts limit fuel (.grow a heads b) n text rest ts := by
  obtain ⟨all, run, frames⟩ := h
  refine ⟨all, ?_, frames⟩
  rw [running, Rule.run]
  simp only [running] at run stop
  simp only [run, Outcome.reaching]
  cases limit with
  | zero => rfl
  | succ limit =>
      rw [Rule.grown]
      simp only [stop]
      split <;> rfl

/-- A suffix adopts what stands in front of it, and nothing grows from there: no suffix follows, or
none is looked for behind a node of this kind. -/
theorem Reaches.grow_once (heads : List Kind) {t : Tree} {k : Kind} {s e : Nat} {cs : List Tree}
    (ha : Accepts limit fuel a n text (more ++ rest) [t])
    (hb : Accepts limit fuel b (n + text.length) more rest [.node k none s e cs])
    (some_ : more ≠ []) (once : 1 ≤ limit)
    (adopts : (heads.isEmpty || heads.contains t.kind) = true)
    (stop : (heads.isEmpty || heads.contains k) = true →
      (running limit fuel b (behind (n + text.length + more.length) rest)).result = none) :
    ∃ u, u.kind = k ∧ Accepts limit fuel (.grow a heads b) n (text ++ more) rest [u] := by
  obtain ⟨all, run, frames⟩ := ha
  obtain ⟨all', run', frames'⟩ := hb
  obtain ⟨rfl, start, -⟩ := frames.single
  obtain ⟨rfl, -, stop'⟩ := frames'.single
  have proper : t.isExtra = false := frames.isExtra_of_mem List.mem_cons_self
  have proper' : k.isExtra = false := frames'.isExtra_of_mem List.mem_cons_self
  obtain ⟨limit, rfl⟩ : ∃ l, limit = l + 1 := ⟨limit - 1, by omega⟩
  have place : n + text.length + more.length = n + (text ++ more).length := by
    rw [List.length_append, Nat.add_assoc]
  have moves : n + text.length < n + text.length + more.length :=
    Nat.lt_add_of_pos_right (List.length_pos_iff.2 some_)
  have gap : ∀ x ∈ (behind n (text ++ (more ++ rest))).gap, x.isExtra = true :=
    fun _ hx => (comments_behind _ _).isExtra hx
  have gap' : ((behind (n + text.length) (more ++ rest)).gap).all Tree.isExtra = true :=
    Cursor.gap_behind_extra _ _
  have dropped : ((behind n (text ++ (more ++ rest))).gap ++ [t]).dropWhile Tree.isExtra = [t] := by
    rw [List.dropWhile_append_of_pos gap, List.dropWhile_cons_of_neg (by simp [proper])]
  have taken : ((behind n (text ++ (more ++ rest))).gap ++ [t]).takeWhile Tree.isExtra =
      (behind n (text ++ (more ++ rest))).gap := by
    rw [List.takeWhile_append_of_pos gap, List.takeWhile_cons_of_neg (by simp [proper]),
      List.append_nil]
  let u : Tree := .node k none t.start e (t.withLabel k.headLabel ::
    ((behind (n + text.length) (more ++ rest)).gap ++ cs))
  refine ⟨u, rfl, [u], ?_, ?_⟩
  · rw [List.append_assoc, running, Rule.run]
    simp only [running] at run run' stop
    simp only [run, Outcome.reaching]
    rw [Rule.grown]
    simp only [List.getLast?_concat, Option.map_some, Option.getD_some, adopts, if_true, run']
    rw [if_pos (show (behind _ _).place < (behind _ _).place from moves), adopt_eq gap' proper',
      dropped]
    simp only [taken, List.map_cons, List.map_nil, proper, Bool.false_eq_true, if_false,
      List.cons_append, List.nil_append, Outcome.reaching]
    cases limit with
    | zero => rw [Rule.grown, ← place]; rfl
    | succ limit =>
        rw [Rule.grown]
        simp only [List.getLast?_concat, Option.map_some, Option.getD_some, Tree.kind]
        split
        · simp only [stop ‹_›]
          rw [← place]
          rfl
        · rw [← place]
          rfl
  · have frames : Frames [u] [u] t.start e := .leaf proper' _ _ _ _
    rw [← place, List.append_assoc, ← start]
    exact stop' ▸ frames

/-! ## Rules that read nothing -/

theorem opt_of_none {c : Cursor} (h : (running limit fuel a c).result = none) :
    (running limit fuel (.opt a) c).result = some ([], c) := by
  rw [running, Rule.run]
  simp only [running] at h
  simp only [h]
  rfl

theorem many_of_none {c : Cursor} (h : (running limit fuel a c).result = none) :
    (running limit fuel (.many a) c).result = some ([], c) := by
  exact repeated_of_none h limit

theorem passes_opt (h : (running limit fuel a (behind n rest)).result = none) :
    Passes limit fuel (.opt a) n [] rest [] := .inl ⟨rfl, rfl, opt_of_none h⟩

end

end PropStories.Tsx
