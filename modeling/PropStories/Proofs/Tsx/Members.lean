import PropStories.Proofs.Tsx.Everywhere
import PropStories.Proofs.Tsx.Gaps

/-!
# What stands between the braces of an object literal

In a source without a fault, whatever stands in an object literal begins with a visible character:
a member begins with a token, and in front of a token the whole gap has been passed over. What is no
member ends with a visible character, too, unless there is no line feed in it.
-/

namespace PropStories.Tsx

open Text (slice)
open Lexeme (comment? blockCommentTail? isLineEnd)

variable {source : List Char}

def IsVisible (source : List Char) (n : Nat) : Prop :=
  ∃ c, source[n]? = some c ∧ Text.isBlank c = false

/-- Whether a child of an object literal is a member, not a comment, brace or comma. -/
def Kind.isMember (k : Kind) : Bool := k.isNamed && k != .comment

structure Shows (source : List Char) (t : Tree) : Prop where
  proper : t.start < t.stop
  start : IsVisible source t.start
  ends : t.kind.isMember = false →
    IsVisible source (t.stop - 1) ∨ '\n' ∉ slice source t.start t.stop

theorem getElem?_of_drop {cs : List Char} {n : Nat} (h : cs = source.drop n) (i : Nat) :
    cs[i]? = source[n + i]? := by
  rw [h, List.getElem?_drop]

/-! ## Comments -/

theorem blockCommentTail?_last {cs : List Char} {n : Nat} (h : blockCommentTail? cs = some n) :
    2 ≤ n ∧ cs[n - 1]? = some '/' := by
  induction cs generalizing n with
  | nil => simp [blockCommentTail?] at h
  | cons c cs ih =>
      rw [blockCommentTail?] at h
      split at h
      · rename_i ends
        obtain rfl := Option.some.inj h
        rw [Bool.and_eq_true, beq_iff_eq, beq_iff_eq, List.head?_eq_getElem?] at ends
        exact ⟨Nat.le_refl 2, ends.2⟩
      · obtain ⟨m, hm, rfl⟩ := Option.map_eq_some_iff.1 h
        obtain ⟨two, last⟩ := ih hm
        obtain ⟨m, rfl⟩ : ∃ k, m = k + 1 := ⟨m - 1, by omega⟩
        exact ⟨by omega, by simpa using last⟩

theorem comment?_ends {cs : List Char} {len : Nat} (h : comment? cs = some len) :
    cs[0]? = some '/' ∧ (cs[len - 1]? = some '/' ∨ '\n' ∉ cs.take len) := by
  unfold comment? at h
  split at h
  · rename_i cs
    obtain rfl := Option.some.inj h
    refine ⟨rfl, .inr ?_⟩
    have inside := List.all_eq_true.1 (List.all_takeWhile (p := fun c => !isLineEnd c) (l := cs))
    have whole := List.prefix_iff_eq_take.1
      (List.takeWhile_prefix (l := cs) fun c => !isLineEnd c)
    rw [List.take_succ_cons, List.take_succ_cons, ← whole]
    intro mem
    simp only [List.mem_cons] at mem
    rcases mem with mem | mem | mem
    · exact absurd mem (by decide)
    · exact absurd mem (by decide)
    · exact absurd (inside _ mem) (by decide)
  · rename_i cs
    obtain ⟨m, hm, rfl⟩ := Option.map_eq_some_iff.1 h
    obtain ⟨two, last⟩ := blockCommentTail?_last hm
    obtain ⟨m, rfl⟩ : ∃ k, m = k + 1 := ⟨m - 1, by omega⟩
    exact ⟨rfl, .inl (by simpa using last)⟩
  · contradiction

theorem shows_comment {cs : List Char} {n len : Nat} (hcs : cs = source.drop n)
    (h : comment? cs = some len) : Shows source (.node .comment none n (n + len) []) := by
  obtain ⟨first, last⟩ := comment?_ends h
  have positive := (comment?_bounds h).1
  have slash : Text.isBlank '/' = false := by decide
  refine ⟨Nat.lt_add_of_pos_right positive, ⟨'/', getElem?_of_drop hcs 0 ▸ first, slash⟩,
    fun _ => last.imp (fun last => ⟨'/', ?_, slash⟩) fun inside => ?_⟩
  · rw [getElem?_of_drop hcs] at last
    show source[n + len - 1]? = _
    rwa [Nat.add_sub_assoc positive]
  · show '\n' ∉ slice source n (n + len)
    rwa [slice, ← hcs, Nat.add_sub_cancel_left]

/-! ## Cursors -/

theorem firm_scanGap (repairs : List Repair) (inside n : Nat) (cs : List Char) (br : Bool) :
    Firm (Cursor.scanGap repairs inside n cs br).ahead := by
  fun_induction Cursor.scanGap repairs inside n cs br with
  | case1 => exact firm_nil
  | case2 _ _ _ _ _ ih => exact ih
  | case3 _ _ _ _ _ _ _ ih => exact ih
  | case4 _ _ _ _ _ _ ih => exact ih
  | case5 _ _ _ _ _ _ _ _ _ ih => exact ih
  | case6 n c cs br _ gap comment =>
      rintro d rest eq
      obtain ⟨rfl, rfl⟩ := List.cons.inj eq
      exact ⟨by simpa using gap, comment⟩

theorem scanGap_shows {repairs : List Repair} {inside n : Nat} {cs : List Char} {br : Bool}
    (h : cs = source.drop n) (clear : Clear (Cursor.scanGap repairs inside n cs br).trees) :
    ∀ t ∈ (Cursor.scanGap repairs inside n cs br).trees, Shows source t := by
  fun_induction Cursor.scanGap repairs inside n cs br with
  | case1 => exact List.forall_mem_nil _
  | case2 _ _ _ _ _ ih => exact ih (drop_succ_of_cons h) clear
  | case3 =>
      rw [clear_cons, firstFault?_node] at clear
      exact absurd clear.1.1 (by decide)
  | case4 _ _ _ _ _ _ ih => exact ih (drop_succ_of_cons h) clear
  | case5 n c cs br _ _ len hlen g ih =>
      intro t ht
      rcases List.mem_cons.1 ht with rfl | ht
      · exact shows_comment h hlen
      · exact ih (drop_succ_of_cons h) (clear_cons.1 clear).2 t ht
  | case6 => exact List.forall_mem_nil _

namespace Cursor.Stands

variable {c : Cursor} (hc : c.Stands source)

include hc

theorem gap_shows (clear : Clear c.gap) : ∀ t ∈ c.gap, Shows source t := by
  obtain ⟨repairs, supplied, eq⟩ := hc.after
  rw [eq] at clear ⊢
  exact scanGap_shows hc.rest clear

theorem token_shows {k : Kind} {n : Nat} (proper : n ≠ 0) (some_ : c.ahead ≠ [])
    (line : k.isMember = false → '\n' ∉ c.ahead.take n) :
    Shows source (.node k none c.next (c.next + n) []) := by
  have firm : Firm c.ahead := by
    obtain ⟨repairs, supplied, eq⟩ := hc.after
    rw [eq]
    exact firm_scanGap _ _ _ _ _
  obtain ⟨d, rest, ahead⟩ := List.exists_cons_of_ne_nil some_
  have gap := (firm d rest ahead).1
  rw [Lexeme.isGap, Bool.or_eq_false_iff, Bool.or_eq_false_iff, Bool.or_eq_false_iff] at gap
  refine ⟨Nat.lt_add_of_pos_right (Nat.pos_of_ne_zero proper), ⟨d, ?_, gap.1.1.1⟩,
    fun other => .inr (slice_next hc n ▸ line other)⟩
  have first := getElem?_of_drop hc.ahead 0
  rw [ahead] at first
  exact first.symm

end Cursor.Stands

/-! ## Rules -/

def Terminal.isPlain : Terminal → Bool
  | .word _ | .mark _ _ | .name _ | .privateName | .number | .string => true
  | _ => false

def Terminal.isLine : Terminal → Bool
  | .word w | .mark w _ => !w.toList.contains '\n'
  | _ => false

mutual

def Rule.opens : Rule → Bool
  | .token t k => t.isPlain && !k.isExtra && (k.isMember || t.isLine)
  | .seq a b => a.opens || a.isShown && b.opens
  | .alt a b => a.opens && b.opens
  | .label _ a => a.opens
  | .node k a => !k.isExtra && k.isMember && a.opens
  | _ => false

def Rule.isShown : Rule → Bool
  | .token t k => t.isPlain && !k.isExtra && (k.isMember || t.isLine)
  | .seq a b | .alt a b => a.isShown && b.isShown
  | .opt a | .many a | .label _ a => a.isShown
  | .node k a => !k.isExtra && k.isMember && a.opens
  | .empty | .sameLine | .follows _ | .without _ => true
  | .ref _ | .grow _ _ _ => false

end

/-! ## Runs -/

variable {limit : Nat} {rec : Nonterminal → Cursor → Outcome}

def StartsSeen (source : List Char) (ts : List Tree) : Prop :=
  ∃ front first rest, ts = front ++ first :: rest ∧
    (∀ t ∈ front, t.isExtra = true ∧ Shows source t) ∧ first.isExtra = false ∧ Shows source first

theorem Shows.withLabel {t : Tree} (h : Shows source t) (l : Option Label) :
    Shows source (t.withLabel l) := by
  cases t
  exact ⟨h.proper, h.start, h.ends⟩

theorem opens_or_extras {ts : List Tree} (h : ∀ t ∈ ts, Shows source t) :
    StartsSeen source ts ∨ ∀ t ∈ ts, t.isExtra = true := by
  induction ts with
  | nil => exact .inr nofun
  | cons t ts ih =>
      cases extra : t.isExtra with
      | false => exact .inl ⟨[], t, ts, rfl, nofun, extra, h t List.mem_cons_self⟩
      | true =>
          refine (ih fun u hu => h u (List.mem_cons_of_mem _ hu)).imp ?_ fun extras => ?_
          · rintro ⟨front, first, rest, rfl, facts, behind⟩
            refine ⟨t :: front, first, rest, rfl, fun u hu => ?_, behind⟩
            rcases List.mem_cons.1 hu with rfl | hu
            · exact ⟨extra, h u List.mem_cons_self⟩
            · exact facts u hu
          · exact List.forall_mem_cons.2 ⟨extra, extras⟩

namespace StartsSeen

variable {ts us : List Tree}

theorem append (h : StartsSeen source ts) (us : List Tree) : StartsSeen source (ts ++ us) := by
  obtain ⟨front, first, rest, rfl, facts⟩ := h
  exact ⟨front, first, rest ++ us, by simp, facts⟩

theorem extras_append (h : StartsSeen source us) (extras : ∀ t ∈ ts, t.isExtra = true)
    (shows_ : ∀ t ∈ ts, Shows source t) : StartsSeen source (ts ++ us) := by
  obtain ⟨front, first, rest, rfl, facts, behind⟩ := h
  refine ⟨ts ++ front, first, rest, by simp, fun t ht => ?_, behind⟩
  exact (List.mem_append.1 ht).elim (fun ht => ⟨extras t ht, shows_ t ht⟩) (facts t)

theorem labelled (h : StartsSeen source ts) (l : Label) : StartsSeen source (Tree.labelled l ts) := by
  obtain ⟨front, first, rest, rfl, facts, proper, begins⟩ := h
  have same : front.map (fun t => if t.isExtra then t else t.withLabel (some l)) = front :=
    (List.map_congr_left fun t ht => if_pos (facts t ht).1).trans (List.map_id' front)
  refine ⟨front, first.withLabel (some l),
    rest.map fun t => if t.isExtra then t else t.withLabel (some l), ?_, facts, ?_,
    begins.withLabel _⟩
  · rw [Tree.labelled, List.map_append, same, List.map_cons, proper, if_neg Bool.false_ne_true]
  · cases first
    exact proper

theorem wrap {a b place : Nat} {k : Kind} (h : StartsSeen source ts) (lined : Lined source a ts b)
    (other : k.isExtra = false) (member : k.isMember = true) :
    (∀ t ∈ Tree.wrap k place ts, Shows source t) ∧ StartsSeen source (Tree.wrap k place ts) := by
  obtain ⟨front, first, rest, rfl, facts, proper, begins⟩ := h
  have extras : ∀ t ∈ front, t.isExtra = true := fun t ht => (facts t ht).1
  have hd : (front ++ first :: rest).dropWhile Tree.isExtra = first :: rest := by
    rw [List.dropWhile_append_of_pos extras, List.dropWhile_cons, proper]
    rfl
  have ht : (front ++ first :: rest).takeWhile Tree.isExtra = front := by
    rw [List.takeWhile_append_of_pos extras, List.takeWhile_cons, proper]
    exact List.append_nil front
  obtain ⟨-, -, -, inner, -⟩ := lined_dropWhile lined hd
  rw [lined_cons] at inner
  have node : Shows source
      (.node k none first.start ((rest.getLast?).getD first).stop (first :: rest)) := by
    refine ⟨Nat.lt_of_lt_of_le begins.proper inner.2.2.le, begins.start, fun none => ?_⟩
    change k.isMember = false at none
    rw [member] at none
    contradiction
  have eq : Tree.wrap k place (front ++ first :: rest) =
      front ++ [.node k none first.start ((rest.getLast?).getD first).stop (first :: rest)] := by
    unfold Tree.wrap
    rw [hd, ht]
  rw [eq]
  refine ⟨fun t ht => ?_, front, _, [], rfl, facts, other, node⟩
  rcases List.mem_append.1 ht with ht | ht
  · exact (facts t ht).2
  · rw [List.mem_singleton.1 ht]
    exact node

end StartsSeen

theorem find_plain {t : Terminal} (plain : t.isPlain = true) (c : Cursor) :
    ∃ o, c.find t = Cursor.ofLength? o ∧ (c.ahead = [] → ∀ n, o = some n → n = 0) ∧
      (t.isLine = true → ∀ n, o = some n → '\n' ∉ c.ahead.take n) := by
  have text {w : String} {n : Nat} (found : n = w.length ∧ c.ahead.take n = w.toList) :
      (c.ahead = [] → n = 0) ∧ (!w.toList.contains '\n' → '\n' ∉ c.ahead.take n) := by
    obtain ⟨length, text⟩ := found
    refine ⟨fun none => ?_, fun line => by simpa [text] using line⟩
    rw [none, List.take_nil] at text
    rw [length, ← String.length_toList, ← text, List.length_nil]
  cases t <;> try contradiction
  case word w =>
    exact ⟨_, rfl, fun none n found => (text (word?_eq_some found)).1 none,
      fun line n found => (text (word?_eq_some found)).2 line⟩
  case mark m stops =>
    exact ⟨_, rfl, fun none n found => (text (mark?_eq_some found)).1 none,
      fun line n found => (text (mark?_eq_some found)).2 line⟩
  all_goals
    refine ⟨_, rfl, fun none n found => ?_, nofun⟩
    rw [none] at found
    cases found

theorem run_token {t : Terminal} {k : Kind} (plain : t.isPlain = true) (other : k.isExtra = false)
    (line : k.isMember = true ∨ t.isLine = true) {c c' : Cursor} {ts : List Tree}
    (hc : c.Stands source) (hr : (Rule.run limit rec (.token t k) c).result = some (ts, c'))
    (clear : Clear ts) : (∀ t ∈ ts, Shows source t) ∧ StartsSeen source ts := by
  obtain ⟨o, find, empty, inside⟩ := find_plain plain c
  obtain ⟨n, found, proper, rfl, -⟩ := run_lexeme find hr clear
  have leaf : Shows source (.node k none c.next (c.next + n) []) := by
    refine hc.token_shows proper (fun none => proper (empty none n found)) fun none => ?_
    exact inside (line.resolve_left (by simp [none])) n found
  have gap := hc.gap_shows (clear_append.1 clear).1
  refine ⟨fun t ht => ?_, c.gap, _, [], rfl,
    fun t ht => ⟨List.all_eq_true.1 hc.extras t ht, gap t ht⟩, other, leaf⟩
  rcases List.mem_append.1 ht with ht | ht
  · exact gap t ht
  · rw [List.mem_singleton.1 ht]
    exact leaf

theorem run_shows (hrec : ∀ n c, c.Stands source → Reads source c (rec n c)) (r : Rule)
    (orderly : r.isOrderly = true) {c c' : Cursor} {ts : List Tree} (hc : c.Stands source)
    (hr : (Rule.run limit rec r c).result = some (ts, c')) (clear : Clear ts) :
    (r.isShown = true → ∀ t ∈ ts, Shows source t) ∧ (r.opens = true → StartsSeen source ts) := by
  have never {p : Prop} (h : false = true) : p := absurd h Bool.false_ne_true
  induction r generalizing c c' ts with
  | empty => exact ⟨fun _ => nothing_forall (.inl rfl) hr, never⟩
  | token t k =>
      rw [Rule.isShown, Rule.opens, Bool.and_eq_true, Bool.and_eq_true, Bool.not_eq_true',
        Bool.or_eq_true]
      have token (h : (t.isPlain = true ∧ k.isExtra = false) ∧
          (k.isMember = true ∨ t.isLine = true)) := run_token h.1.1 h.1.2 h.2 hc hr clear
      exact ⟨fun h => (token h).1, fun h => (token h).2⟩
  | sameLine =>
      rw [Rule.run] at hr
      refine ⟨fun _ => nothing_forall (c := c) ?_ hr, never⟩
      split <;> simp
  | ref n => exact ⟨never, never⟩
  | seq a b iha ihb =>
      rw [Rule.isOrderly, Bool.and_eq_true] at orderly
      obtain ⟨front, m, behind, ha, hb, rfl⟩ := run_seq hr
      rw [clear_append] at clear
      have stands := (run_reads hrec a orderly.1 hc _ _ ha).1
      obtain ⟨showsA, opensA⟩ := iha orderly.1 hc ha clear.1
      obtain ⟨showsB, opensB⟩ := ihb orderly.2 stands hb clear.2
      rw [Rule.isShown, Rule.opens, Bool.and_eq_true, Bool.or_eq_true, Bool.and_eq_true]
      refine ⟨fun h t ht => (List.mem_append.1 ht).elim (showsA h.1 t) (showsB h.2 t), ?_⟩
      rintro (opens | ⟨shown, opens⟩)
      · exact (opensA opens).append behind
      · obtain first | extras := opens_or_extras (showsA shown)
        · exact first.append behind
        · exact (opensB opens).extras_append extras (showsA shown)
  | alt a b iha ihb =>
      rw [Rule.isOrderly, Bool.and_eq_true] at orderly
      rw [Rule.isShown, Rule.opens, Bool.and_eq_true, Bool.and_eq_true]
      rw [Rule.run] at hr
      split at hr
      · obtain ⟨shows_, opens⟩ := ihb orderly.2 hc hr clear
        exact ⟨fun h => shows_ h.2, fun h => opens h.2⟩
      · obtain ⟨shows_, opens⟩ := iha orderly.1 hc hr clear
        exact ⟨fun h => shows_ h.1, fun h => opens h.1⟩
  | opt a ih =>
      rw [Rule.run] at hr
      refine ⟨fun h => ?_, never⟩
      split at hr
      · obtain ⟨rfl, -⟩ := Prod.mk.inj (Option.some.inj hr)
        exact List.forall_mem_nil _
      · exact (ih orderly hc hr clear).1 h
  | many a ih =>
      rw [Rule.run] at hr
      exact ⟨fun h => repeated_forall (fun c hc => run_reads hrec a orderly hc)
        (fun c c' ts hc hr clear => (ih orderly hc hr clear).1 h) limit hc hr clear, never⟩
  | follows a ih =>
      rw [Rule.run] at hr
      refine ⟨fun _ => nothing_forall (c := c) ?_ hr, never⟩
      split <;> simp
  | without a ih =>
      rw [Rule.run] at hr
      refine ⟨fun _ => nothing_forall (c := c) ?_ hr, never⟩
      split <;> simp
  | node k a ih =>
      rw [Rule.isOrderly, Bool.and_eq_true] at orderly
      rw [Rule.isShown, Rule.opens, Bool.and_eq_true, Bool.and_eq_true, Bool.not_eq_true']
      obtain ⟨inner, run, rfl⟩ := run_node hr
      have clear := clear_of_wrap clear
      have lined := (run_reads hrec a orderly.1 hc _ _ run).2 clear
      have wrapped (h : (k.isExtra = false ∧ k.isMember = true) ∧ a.opens = true) :
          (∀ t ∈ Tree.wrap k c.place inner, Shows source t) ∧
            StartsSeen source (Tree.wrap k c.place inner) :=
        ((ih orderly.1 hc run clear).2 h.2).wrap lined h.1.1 h.1.2
      exact ⟨fun h => (wrapped h).1, fun h => (wrapped h).2⟩
  | label l a ih =>
      rw [Rule.run] at hr
      obtain ⟨⟨inner, d⟩, run, eq⟩ := Option.map_eq_some_iff.1 hr
      obtain ⟨rfl, rfl⟩ := Prod.mk.inj eq
      obtain ⟨shows_, opens⟩ := ih orderly hc run (clear_labelled.1 clear)
      refine ⟨fun h t ht => ?_, fun h => (opens h).labelled l⟩
      obtain ⟨u, hu, rfl⟩ := List.mem_map.1 ht
      split
      · exact shows_ h u hu
      · exact (shows_ h u hu).withLabel _
  | grow base heads suffix => exact ⟨never, never⟩

/-! ## The grammar -/

theorem grammar_makes_objects (n : Nonterminal) :
    (grammar n).makes .object Rule.isShown = true := by
  cases n <;> decide +kernel

/-- In a source without a fault, whatever stands in an object literal begins with a visible
character. -/
theorem parse_shows (clear : (parse source).root.firstFault? = none) :
    Everywhere .object (Shows source) (parse source).root := by
  refine parse_everywhere (fun limit rec r c c' ts hrec orderly shown hc hr clear t ht => ?_)
    grammar_makes_objects (by decide) clear
  exact (run_shows hrec r orderly hc hr clear).1 shown t ((List.dropWhile_suffix _).mem ht)

end PropStories.Tsx
