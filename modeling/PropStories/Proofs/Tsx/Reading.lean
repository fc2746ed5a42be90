import PropStories.Proofs.Tsx.Nesting
import PropStories.Tsx.Parse

/-!
# Reading gives fitting trees

Whatever a rule reads, its trees fit the source and lie between the cursor before and the cursor
behind, unless a fault is among them. This asks three things of a grammar, which are checked rule
by rule: marks are read as themselves, object literals are put in braces, and what adopts the
trees before it is a node. Main statement: the syntax of a source without a fault fits the source.
-/

namespace PropStories.Tsx

variable {source : List Char}

/-! ## Cursors -/

/-- The cursor stands in the source behind a token, with a gap that fits. -/
structure Cursor.Stands (source : List Char) (c : Cursor) : Prop where
  after : ∃ repairs supplied, c = Cursor.after repairs supplied c.place c.rest
  rest : c.rest = source.drop c.place
  ahead : c.ahead = source.drop c.next
  gap : Clear c.gap → Lined source c.place c.gap c.next
  extras : c.gap.all Tree.isExtra = true

theorem blockCommentTail?_le {cs : List Char} {n : Nat}
    (h : Lexeme.blockCommentTail? cs = some n) : n ≤ cs.length := by
  induction cs generalizing n with
  | nil => simp [Lexeme.blockCommentTail?] at h
  | cons c cs ih =>
      rw [Lexeme.blockCommentTail?] at h
      split at h
      · rename_i ends
        cases cs with
        | nil => simp at ends
        | cons d ds =>
            simp only [Option.some.injEq] at h
            simp only [List.length_cons]
            omega
      · obtain ⟨m, hm, rfl⟩ := Option.map_eq_some_iff.1 h
        have := ih hm
        simp only [List.length_cons]
        omega

theorem comment?_bounds {cs : List Char} {n : Nat} (h : Lexeme.comment? cs = some n) :
    1 ≤ n ∧ n ≤ cs.length := by
  unfold Lexeme.comment? at h
  split at h
  · rename_i cs
    have := (List.takeWhile_prefix (l := cs) fun c => !Lexeme.isLineEnd c).length_le
    simp only [Option.some.injEq] at h
    simp only [List.length_cons]
    omega
  · obtain ⟨m, hm, rfl⟩ := Option.map_eq_some_iff.1 h
    have := blockCommentTail?_le hm
    simp only [List.length_cons]
    omega
  · contradiction

theorem drop_succ_of_cons {n : Nat} {c : Char} {cs : List Char} (h : c :: cs = source.drop n) :
    cs = source.drop (n + 1) := by
  rw [← List.tail_drop, ← h, List.tail_cons]

theorem scanGap_ahead {repairs : List Repair} {inside n : Nat} {cs : List Char} {br : Bool}
    (h : cs = source.drop n) :
    (Cursor.scanGap repairs inside n cs br).ahead =
      source.drop (Cursor.scanGap repairs inside n cs br).next := by
  fun_induction Cursor.scanGap repairs inside n cs br with
  | case1 => exact h
  | case2 _ _ _ _ _ ih => exact ih (drop_succ_of_cons h)
  | case3 _ _ _ _ _ _ _ ih => exact ih (drop_succ_of_cons h)
  | case4 _ _ _ _ _ _ ih => exact ih (drop_succ_of_cons h)
  | case5 _ _ _ _ _ _ _ _ _ ih => exact ih (drop_succ_of_cons h)
  | case6 => exact h

theorem scanGap_extras (repairs : List Repair) (inside n : Nat) (cs : List Char) (br : Bool) :
    (Cursor.scanGap repairs inside n cs br).trees.all Tree.isExtra = true := by
  fun_induction Cursor.scanGap repairs inside n cs br with
  | case1 => rfl
  | case2 _ _ _ _ _ ih => exact ih
  | case3 _ _ _ _ _ _ _ ih => exact ih
  | case4 _ _ _ _ _ _ ih => exact ih
  | case5 _ _ _ _ _ _ _ _ _ ih => exact ih
  | case6 => rfl

/-- A stretch that ends behind the source has an error in front of it, so it is not clear. -/
theorem scanGap_lined {repairs : List Repair} {inside n : Nat} {cs : List Char} {br : Bool}
    (h : inside ≤ cs.length) (clear : Clear (Cursor.scanGap repairs inside n cs br).trees) :
    Lined source (n + inside) (Cursor.scanGap repairs inside n cs br).trees
      (Cursor.scanGap repairs inside n cs br).next := by
  fun_induction Cursor.scanGap repairs inside n cs br with
  | case1 inside n =>
      obtain rfl : inside = 0 := Nat.le_zero.1 h
      exact lined_nil.2 (Nat.le_refl n)
  | case2 inside n c cs br ih =>
      have := ih (Nat.le_of_succ_le_succ h) clear
      exact this.mono (by omega) (Nat.le_refl _)
  | case3 => 
      rw [clear_cons, firstFault?_node] at clear
      exact absurd clear.1.1 (by decide)
  | case4 n c cs br _ _ ih => exact (ih (Nat.zero_le _) clear).mono (by omega) (Nat.le_refl _)
  | case5 n c cs br _ _ len hlen g ih =>
      obtain ⟨positive, short⟩ := comment?_bounds hlen
      rw [List.length_cons] at short
      have behind := ih (by omega) (clear_cons.1 clear).2
      refine lined_cons.2 ⟨Nat.le_refl n, ?_, behind.mono ?_ (Nat.le_refl _)⟩
      · rw [Fits]
        exact ⟨lined_nil.2 (Nat.le_add_right n len), trivial⟩
      · show n + len ≤ n + 1 + (len - 1)
        omega
  | case6 => exact lined_nil.2 (Nat.le_refl _)

theorem stands_after (repairs : List Repair) (supplied : Bool) {place : Nat} {rest : List Char}
    (h : rest = source.drop place) : (Cursor.after repairs supplied place rest).Stands source where
  after := ⟨repairs, supplied, rfl⟩
  rest := h
  ahead := scanGap_ahead h
  gap := scanGap_lined (Nat.zero_le _)
  extras := scanGap_extras _ _ _ _ _

theorem stands_ofSource (source : List Char) (repairs : List Repair) :
    (Cursor.ofSource source repairs).Stands source :=
  stands_after repairs false (List.drop_zero).symm

/-! ## Tokens -/

theorem take_toList_append (w : String) (rest : List Char) :
    (w.toList ++ rest).take w.length = w.toList := by
  rw [← String.length_toList, List.take_left]

theorem word?_eq_some {w : String} {cs : List Char} {n : Nat} (h : Lexeme.word? w cs = some n) :
    n = w.length ∧ cs.take n = w.toList := by
  unfold Lexeme.word? at h
  split at h
  · contradiction
  · rename_i rest hr
    rw [Text.afterStart?_eq_some_iff] at hr
    split at h
    · contradiction
    · obtain rfl := Option.some.inj h
      exact ⟨rfl, hr ▸ take_toList_append w rest⟩

theorem mark?_eq_some {m stops : String} {cs : List Char} {n : Nat}
    (h : Lexeme.mark? m stops cs = some n) : n = m.length ∧ cs.take n = m.toList := by
  unfold Lexeme.mark? at h
  split at h
  · contradiction
  · rename_i hr
    rw [Text.afterStart?_eq_some_iff] at hr
    obtain rfl := Option.some.inj h
    exact ⟨rfl, hr ▸ take_toList_append m []⟩
  · rename_i c rest hr
    rw [Text.afterStart?_eq_some_iff] at hr
    split at h
    · contradiction
    · obtain rfl := Option.some.inj h
      exact ⟨rfl, hr ▸ take_toList_append m (c :: rest)⟩

theorem ofLength?_cases (o : Option Nat) :
    Cursor.ofLength? o = .nothing ∨
      ∃ n, o = some n ∧ n ≠ 0 ∧ Cursor.ofLength? o = .token n := by
  cases o with
  | none => exact .inl rfl
  | some n =>
      cases n with
      | zero => exact .inl rfl
      | succ n => exact .inr ⟨n + 1, rfl, nofun, rfl⟩

theorem ofLength?_eq_token {o : Option Nat} {n : Nat} (h : Cursor.ofLength? o = .token n) :
    o = some n ∧ n ≠ 0 := by
  obtain nothing | ⟨m, ho, positive, token⟩ := ofLength?_cases o
  · rw [nothing] at h
    contradiction
  · rw [token] at h
    obtain rfl := Cursor.Found.token.inj h
    exact ⟨ho, positive⟩

def Terminal.suits (t : Terminal) (k : Kind) : Bool :=
  match k, t with
  | .token w, .word v => w == v
  | .token w, .mark m _ => w == m
  | .token w, .ternaryMark => w == "?"
  | .token _, _ => false
  | .object, _ => false
  | _, _ => true

theorem find_token {c : Cursor} {t : Terminal} {n : Nat} {w : String}
    (suits : t.suits (.token w) = true) (h : c.find t = .token n) :
    n = w.length ∧ c.ahead.take n = w.toList := by
  cases t <;> simp only [Terminal.suits, Bool.false_eq_true, beq_iff_eq] at suits
  case word v =>
    subst suits
    exact word?_eq_some (ofLength?_eq_token h).1
  case mark m stops =>
    subst suits
    exact mark?_eq_some (ofLength?_eq_token h).1
  case ternaryMark =>
    subst suits
    simp only [Cursor.find] at h
    split at h <;> rename_i ahead
    · contradiction
    · split at h
      · obtain rfl := Cursor.Found.token.inj h
        exact ⟨rfl, ahead ▸ rfl⟩
      · contradiction
    · obtain rfl := Cursor.Found.token.inj h
      exact ⟨rfl, ahead ▸ rfl⟩
    · contradiction

theorem find_adjacent {c : Cursor} {t : Terminal} {n : Nat} {k : Kind}
    (suits : t.suits k = true) (h : c.find t = .adjacent n) : k.isFree = true := by
  have ofLength?_ne (o : Option Nat) : Cursor.ofLength? o ≠ .adjacent n := by
    obtain nothing | ⟨m, -, -, token⟩ := ofLength?_cases o
    · rw [nothing]
      nofun
    · rw [token]
      nofun
  cases t
  case templateText => cases k <;> simp_all [Terminal.suits, Kind.isFree]
  case jsxText => cases k <;> simp_all [Terminal.suits, Kind.isFree]
  all_goals
    simp only [Cursor.find] at h
    first
    | exact absurd h (ofLength?_ne _)
    | (repeat' split at h) <;> first | contradiction | exact absurd h (ofLength?_ne _)

theorem find_eq_of_read {c : Cursor} {t : Terminal} {f : Cursor.Found} (h : c.read t = f)
    (found : f ≠ .nothing) (own : f ≠ .supplied) : c.find t = f := by
  unfold Cursor.read at h
  split at h
  · split at h
    · exact absurd h.symm own
    · exact absurd h.symm found
  · exact h

theorem leaf_fits {k : Kind} {s n : Nat} (kind : KindFits source k s [] (s + n)) :
    Fits source (.node k none s (s + n) []) := by
  rw [Fits]
  exact ⟨lined_nil.2 (Nat.le_add_right s n), kind⟩

theorem token_kindFits {c : Cursor} {t : Terminal} {k : Kind} {n : Nat} (hc : c.Stands source)
    (suits : t.suits k = true) (h : c.find t = .token n) :
    KindFits source k c.next [] (c.next + n) := by
  cases k
  case token w =>
    obtain ⟨length, text⟩ := find_token suits h
    refine ⟨congrArg (c.next + ·) length, ?_⟩
    rw [Text.slice, ← hc.ahead, Nat.add_sub_cancel_left, text]
  case object => cases t <;> simp [Terminal.suits] at suits
  all_goals trivial

/-- What a cursor gives for a terminal, and where it stands then. -/
theorem consume_sound {c c' : Cursor} {t : Terminal} {k : Kind} {ts : List Tree}
    (hc : c.Stands source) (suits : t.suits k = true)
    (h : c.consume k (c.read t) = some (ts, c')) :
    c'.Stands source ∧ (Clear ts → Lined source c.place ts c'.place) := by
  cases found : c.read t <;> rw [found] at h <;> simp only [Cursor.consume] at h
  case nothing => contradiction
  case place =>
    obtain ⟨rfl, rfl⟩ := Prod.mk.inj (Option.some.inj h)
    exact ⟨hc, fun _ => lined_nil.2 (Nat.le_refl _)⟩
  case supplied =>
    obtain ⟨rfl, rfl⟩ := Prod.mk.inj (Option.some.inj h)
    refine ⟨stands_after _ _ hc.rest, fun clear => ?_⟩
    rw [clear_cons, firstFault?_node] at clear
    exact absurd clear.1.1 (by decide)
  case token n =>
    obtain ⟨rfl, rfl⟩ := Prod.mk.inj (Option.some.inj h)
    refine ⟨stands_after _ _ (by rw [hc.ahead, List.drop_drop]), fun clear => ?_⟩
    refine lined_append.2 ⟨c.next, hc.gap (clear_append.1 clear).1, ?_⟩
    show Lined source c.next _ (c.next + n)
    split
    · exact lined_nil.2 (Nat.le_add_right _ _)
    · exact lined_singleton.2 ⟨Nat.le_refl _,
        leaf_fits (token_kindFits hc suits (find_eq_of_read found nofun nofun)), Nat.le_refl _⟩
  case adjacent n =>
    obtain ⟨rfl, rfl⟩ := Prod.mk.inj (Option.some.inj h)
    refine ⟨stands_after _ _ (by rw [hc.rest, List.drop_drop]), fun _ => ?_⟩
    have free := find_adjacent suits (find_eq_of_read found nofun nofun)
    exact lined_singleton.2 ⟨Nat.le_refl _,
      leaf_fits (kindFits_of_isFree free _ _ _), Nat.le_refl _⟩

/-! ## Rules -/

namespace Rule

def isMark (m : String) : Rule → Bool
  | token (.mark n _) k => n == m && k == .token m
  | _ => false

def isBraced : Rule → Bool
  | seq (seq opening _) closing => opening.isMark "\x7b" && closing.isMark "\x7d"
  | _ => false

def isSuffix : Rule → Bool
  | node k _ => k.isFree && !k.isExtra
  | alt a b => a.isSuffix && b.isSuffix
  | seq sameLine b => b.isSuffix
  | _ => false

def isOrderly : Rule → Bool
  | token t k => t.suits k
  | seq a b | alt a b => a.isOrderly && b.isOrderly
  | opt a | many a | label _ a => a.isOrderly
  | node k a => a.isOrderly && (k.isFree || k == .object && a.isBraced)
  | grow base _ suffix => base.isOrderly && suffix.isOrderly && suffix.isSuffix
  | empty | sameLine | ref _ | follows _ | without _ => true

end Rule

/-- What has been read from a cursor fits, unless there is a fault in it. -/
def Reads (source : List Char) (c : Cursor) (o : Outcome) : Prop :=
  ∀ ts c', o.result = some (ts, c') →
    c'.Stands source ∧ (Clear ts → Lined source c.place ts c'.place)

namespace Reads

theorem nothing {c : Cursor} (hc : c.Stands source) (n : Nat) :
    Reads source c (.success [] c n) := by
  rintro ts c' h
  obtain ⟨rfl, rfl⟩ := Prod.mk.inj (Option.some.inj h)
  exact ⟨hc, fun _ => lined_nil.2 (Nat.le_refl _)⟩

theorem failure {c : Cursor} (n : Nat) : Reads source c (.failure n) := by
  rintro ts c' h
  contradiction

theorem andThen {c m : Cursor} {front : List Tree} {o : Outcome} (n : Nat)
    (hf : Clear front → Lined source c.place front m.place) (ho : Reads source m o) :
    Reads source c ((o.mapTrees (front ++ ·)).reaching n) := by
  rintro ts c' h
  obtain ⟨⟨behind, c''⟩, hr, eq⟩ := Option.map_eq_some_iff.1 h
  obtain ⟨rfl, rfl⟩ := Prod.mk.inj eq
  obtain ⟨stands, lined⟩ := ho _ _ hr
  refine ⟨stands, fun clear => ?_⟩
  rw [clear_append] at clear
  exact lined_append.2 ⟨m.place, hf clear.1, lined clear.2⟩

theorem repeated {step : Cursor → Outcome} (hs : ∀ c, c.Stands source → Reads source c (step c))
    (limit : Nat) {c : Cursor} (hc : c.Stands source) :
    Reads source c (Rule.repeated step limit c) := by
  induction limit generalizing c with
  | zero => exact nothing hc 0
  | succ limit ih =>
      unfold Rule.repeated
      simp only
      split
      · exact nothing hc _
      · rename_i ts c' hr
        split
        · obtain ⟨stands, lined⟩ := hs c hc _ _ hr
          exact andThen _ lined (ih stands)
        · exact nothing hc _

theorem grown {step : Cursor → Outcome} (hs : ∀ c, c.Stands source → Reads source c (step c))
    (shape : ∀ c ts c', (step c).result = some (ts, c') → EndsFree ts) (heads : List Kind)
    (limit : Nat) {c start : Cursor} {ts : List Tree} (hc : c.Stands source)
    (hl : Clear ts → Lined source start.place ts c.place) :
    Reads source start (Rule.grown step heads limit ts c) := by
  have stop (n : Nat) {c : Cursor} {ts : List Tree} (hc : c.Stands source)
      (hl : Clear ts → Lined source start.place ts c.place) :
      Reads source start (.success ts c n) := by
    rintro us c' h
    obtain ⟨rfl, rfl⟩ := Prod.mk.inj (Option.some.inj h)
    exact ⟨hc, hl⟩
  induction limit generalizing c ts with
  | zero => exact stop 0 hc hl
  | succ limit ih =>
      unfold Rule.grown
      simp only
      split
      · split
        · exact stop _ hc hl
        · rename_i more c' hr
          split
          · obtain ⟨stands, lined⟩ := hs c hc _ _ hr
            have ends := shape c _ _ hr
            refine ih stands fun clear => ?_
            have clear := clear_of_adopt ends clear
            exact (hl clear.1).adopt ends (lined clear.2)
          · exact stop _ hc hl
      · exact stop _ hc hl

end Reads

variable {limit : Nat} {rec : Nonterminal → Cursor → Outcome}

theorem run_seq {a b : Rule} {c c' : Cursor} {ts : List Tree}
    (h : (Rule.run limit rec (.seq a b) c).result = some (ts, c')) :
    ∃ front m behind, (Rule.run limit rec a c).result = some (front, m) ∧
      (Rule.run limit rec b m).result = some (behind, c') ∧ ts = front ++ behind := by
  rw [Rule.run] at h
  split at h
  · rename_i none
    rw [none] at h
    contradiction
  · rename_i front m hr
    obtain ⟨⟨behind, c''⟩, hb, eq⟩ := Option.map_eq_some_iff.1 h
    obtain ⟨rfl, rfl⟩ := Prod.mk.inj eq
    exact ⟨front, m, behind, hr, hb, rfl⟩

theorem run_node {k : Kind} {a : Rule} {c c' : Cursor} {ts : List Tree}
    (h : (Rule.run limit rec (.node k a) c).result = some (ts, c')) :
    ∃ inner, (Rule.run limit rec a c).result = some (inner, c') ∧
      ts = Tree.wrap k c.place inner := by
  rw [Rule.run] at h
  obtain ⟨⟨inner, c''⟩, hr, eq⟩ := Option.map_eq_some_iff.1 h
  obtain ⟨rfl, rfl⟩ := Prod.mk.inj eq
  exact ⟨inner, hr, rfl⟩

theorem run_lexeme {t : Terminal} {k : Kind} {o : Option Nat} {c c' : Cursor} {ts : List Tree}
    (find : c.find t = Cursor.ofLength? o)
    (hr : (Rule.run limit rec (.token t k) c).result = some (ts, c')) (clear : Clear ts) :
    ∃ n, o = some n ∧ n ≠ 0 ∧ ts = c.gap ++ [.node k none c.next (c.next + n) []] ∧
      c' = Cursor.after c.repairs false (c.next + n) (c.ahead.drop n) := by
  rw [Rule.run] at hr
  split at hr
  · rename_i us d consumed
    obtain ⟨rfl, rfl⟩ := Prod.mk.inj (Option.some.inj hr)
    rw [Cursor.read, find] at consumed
    obtain nothing | ⟨n, rfl, positive, token⟩ := ofLength?_cases o
    · rw [nothing] at consumed
      simp only at consumed
      split at consumed
      · obtain ⟨rfl, rfl⟩ := Prod.mk.inj (Option.some.inj consumed)
        rw [clear_cons, firstFault?_node] at clear
        exact absurd clear.1.1 (by decide)
      · cases consumed
    · rw [token] at consumed
      obtain ⟨rfl, rfl⟩ := Prod.mk.inj (Option.some.inj consumed)
      exact ⟨n, rfl, positive, by simp [positive], rfl⟩
  · cases hr

theorem slice_next {c : Cursor} (hc : c.Stands source) (n : Nat) :
    Text.slice source c.next (c.next + n) = c.ahead.take n := by
  rw [Text.slice, ← hc.ahead, Nat.add_sub_cancel_left]

theorem endsFree_run {r : Rule} (h : r.isSuffix = true) {c c' : Cursor} {ts : List Tree}
    (hr : (Rule.run limit rec r c).result = some (ts, c')) : EndsFree ts := by
  induction r generalizing c ts with
  | node k a =>
      rw [Rule.isSuffix, Bool.and_eq_true, Bool.not_eq_true'] at h
      obtain ⟨inner, -, rfl⟩ := run_node hr
      exact endsFree_wrap h.1 h.2
  | alt a b iha ihb =>
      rw [Rule.isSuffix, Bool.and_eq_true] at h
      rw [Rule.run] at hr
      split at hr
      · exact ihb h.2 hr
      · exact iha h.1 hr
  | seq a b iha ihb =>
      obtain ⟨front, m, behind, ha, hb, rfl⟩ := run_seq hr
      cases a <;> try contradiction
      have front_eq : front = [] := by
        rw [Rule.run] at ha
        split at ha
        · contradiction
        · exact (Prod.mk.inj (Option.some.inj ha)).1.symm
      rw [front_eq, List.nil_append]
      exact ihb h hb
  | _ => contradiction

/-! ## Braces -/

theorem run_mark {a : Rule} {m : String} (h : a.isMark m = true) {c c' : Cursor}
    {ts : List Tree} (hr : (Rule.run limit rec a c).result = some (ts, c')) (clear : Clear ts) :
    ∃ leaf, ts = c.gap ++ [leaf] ∧ leaf.kind = .token m := by
  cases a <;> try contradiction
  rename_i t k
  cases t <;> try contradiction
  rename_i n stops
  simp only [Rule.isMark, Bool.and_eq_true, beq_iff_eq] at h
  obtain ⟨rfl, rfl⟩ := h
  rw [Rule.run] at hr
  split at hr
  · rename_i ts' d consumed
    obtain ⟨rfl, rfl⟩ := Prod.mk.inj (Option.some.inj hr)
    cases found : c.read (.mark n stops) <;> rw [found] at consumed <;>
      simp only [Cursor.consume] at consumed
    case nothing => contradiction
    case place =>
      have found := find_eq_of_read found nofun nofun
      obtain nothing | ⟨_, -, -, token⟩ := ofLength?_cases (Lexeme.mark? n stops c.ahead)
      · rw [Cursor.find, nothing] at found
        contradiction
      · rw [Cursor.find, token] at found
        contradiction
    case supplied =>
      obtain ⟨rfl, rfl⟩ := Prod.mk.inj (Option.some.inj consumed)
      rw [clear_cons, firstFault?_node] at clear
      exact absurd clear.1.1 (by decide)
    case token len =>
      obtain ⟨rfl, rfl⟩ := Prod.mk.inj (Option.some.inj consumed)
      have positive := (ofLength?_eq_token (find_eq_of_read found nofun nofun)).2
      refine ⟨.node (.token n) none c.next (c.next + len) [], ?_, rfl⟩
      simp [positive]
    case adjacent len =>
      have free := find_adjacent (k := .token n) (by simp [Terminal.suits])
        (find_eq_of_read found nofun nofun)
      exact absurd free (by simp [Kind.isFree])
  · contradiction

theorem run_braced {a : Rule} (braced : a.isBraced = true) {c c' : Cursor} {ts : List Tree}
    (extras : c.gap.all Tree.isExtra = true)
    (hr : (Rule.run limit rec a c).result = some (ts, c')) (clear : Clear ts) :
    ∃ opening inner closing,
      ts.dropWhile Tree.isExtra = opening :: (inner ++ [closing]) ∧
        opening.kind = .token "\x7b" ∧ closing.kind = .token "\x7d" := by
  cases a <;> try contradiction
  rename_i a closing
  cases a <;> try contradiction
  rename_i opening middle
  rw [Rule.isBraced, Bool.and_eq_true] at braced
  obtain ⟨front, m, last, hf, hl, rfl⟩ := run_seq hr
  obtain ⟨first, n, inner, ho, -, rfl⟩ := run_seq hf
  rw [clear_append, clear_append] at clear
  obtain ⟨o, rfl, openingKind⟩ := run_mark braced.1 ho clear.1.1
  obtain ⟨d, rfl, closingKind⟩ := run_mark braced.2 hl clear.2
  refine ⟨o, inner ++ m.gap, d, ?_, openingKind, closingKind⟩
  have proper : o.isExtra = false := by
    rw [Tree.isExtra, openingKind]
    rfl
  simp only [List.append_assoc, List.cons_append, List.nil_append]
  rw [List.dropWhile_append_of_pos (List.all_eq_true.1 extras), List.dropWhile_cons, proper]
  rfl

theorem run_reads (hrec : ∀ n c, c.Stands source → Reads source c (rec n c)) (r : Rule)
    (orderly : r.isOrderly = true) {c : Cursor} (hc : c.Stands source) :
    Reads source c (Rule.run limit rec r c) := by
  induction r generalizing c with
  | empty =>
      rw [Rule.run]
      exact .nothing hc 0
  | token t k =>
      rw [Rule.run]
      split
      · rename_i ts c' consumed
        rintro us c'' h
        obtain ⟨rfl, rfl⟩ := Prod.mk.inj (Option.some.inj h)
        exact consume_sound hc orderly consumed
      · exact .failure _
  | sameLine =>
      rw [Rule.run]
      split
      · exact .failure 0
      · exact .nothing hc 0
  | ref n =>
      rw [Rule.run]
      exact hrec n c hc
  | seq a b iha ihb =>
      rw [Rule.isOrderly, Bool.and_eq_true] at orderly
      rw [Rule.run]
      split
      · rename_i none
        rintro ts c' h
        rw [none] at h
        contradiction
      · rename_i front m hr
        obtain ⟨stands, lined⟩ := iha orderly.1 hc _ _ hr
        exact .andThen _ lined (ihb orderly.2 stands)
  | alt a b iha ihb =>
      rw [Rule.isOrderly, Bool.and_eq_true] at orderly
      rw [Rule.run]
      split
      · exact ihb orderly.2 hc
      · exact iha orderly.1 hc
  | opt a ih =>
      rw [Rule.run]
      split
      · exact .nothing hc _
      · exact ih orderly hc
  | many a ih =>
      rw [Rule.run]
      exact .repeated (fun c hc => ih orderly hc) limit hc
  | follows a ih =>
      rw [Rule.run]
      split
      · exact .nothing hc 0
      · exact .failure 0
  | without a ih =>
      rw [Rule.run]
      split
      · exact .failure 0
      · exact .nothing hc 0
  | node k a ih =>
      rw [Rule.isOrderly, Bool.and_eq_true, Bool.or_eq_true, Bool.and_eq_true, beq_iff_eq]
        at orderly
      rintro ts c' h
      obtain ⟨inner, hr, rfl⟩ := run_node h
      obtain ⟨stands, lined⟩ := ih orderly.1 hc _ _ hr
      refine ⟨stands, fun whole => ?_⟩
      have clear := clear_of_wrap whole
      obtain free | ⟨rfl, braced⟩ := orderly.2
      · exact (lined clear).wrap_isFree free
      · obtain ⟨o, between, d, eq, openingKind, closingKind⟩ :=
          run_braced braced hc.extras hr clear
        refine (lined clear).wrap (fun none => ?_) fun first rest full => ?_
        · rw [eq] at none
          contradiction
        · rw [eq] at full
          obtain ⟨rfl, rfl⟩ := List.cons.inj full
          refine ⟨o, between, d, rfl, openingKind, closingKind, rfl, ?_⟩
          rw [List.getLast?_concat, Option.getD_some]
  | label l a ih =>
      rw [Rule.run]
      rintro ts c' h
      obtain ⟨⟨inner, c''⟩, hr, eq⟩ := Option.map_eq_some_iff.1 h
      obtain ⟨rfl, rfl⟩ := Prod.mk.inj eq
      obtain ⟨stands, lined⟩ := ih orderly hc _ _ hr
      exact ⟨stands, fun clear => lined_labelled.2 (lined (clear_labelled.1 clear))⟩
  | grow base heads suffix ihb ihs =>
      simp only [Rule.isOrderly, Bool.and_eq_true] at orderly
      obtain ⟨⟨hb, hs⟩, shape⟩ := orderly
      rw [Rule.run]
      split
      · rename_i none
        rintro ts c' h
        rw [none] at h
        contradiction
      · rename_i ts m hr
        obtain ⟨stands, lined⟩ := ihb hb hc _ _ hr
        exact .grown (fun c hc => ihs hs hc) (fun _ _ _ => endsFree_run shape) heads limit stands
          lined

/-! ## The grammar -/

theorem grammar_isOrderly (n : Nonterminal) : (grammar n).isOrderly = true := by
  cases n <;> decide +kernel

theorem read_reads (fuel : Nat) (n : Nonterminal) {c : Cursor} (hc : c.Stands source) :
    Reads source c (Rule.read grammar limit fuel n c) := by
  induction fuel generalizing n c with
  | zero =>
      rw [Rule.read]
      exact .failure 0
  | succ fuel ih =>
      rw [Rule.read]
      exact run_reads (fun n c hc => ih n hc) (grammar n) (grammar_isOrderly n) hc

theorem wholeTree?_fits {repairs : List Repair} {t : Tree}
    (h : wholeTree? source (readProgram source repairs) = some t)
    (clear : t.firstFault? = none) : ∃ b, Lined source 0 t.children b := by
  obtain ⟨⟨ts, c'⟩, hr, rfl⟩ := Option.map_eq_some_iff.1 h
  obtain ⟨-, lined⟩ := read_reads _ _ (stands_ofSource source repairs) _ _ hr
  exact ⟨c'.place, lined (firstFault?_node.1 clear).2⟩

theorem search_fits {fuel : Nat} {plans : List Repair.Plan} {t : Tree}
    (h : Repair.search source fuel plans = some t) (clear : t.firstFault? = none) :
    ∃ b, Lined source 0 t.children b := by
  induction fuel generalizing plans with
  | zero => simp [Repair.search] at h
  | succ fuel ih =>
      cases plans with
      | nil => simp [Repair.search] at h
      | cons plan plans =>
          rw [Repair.search] at h
          split at h
          · rename_i whole
            obtain rfl := Option.some.inj h
            exact wholeTree?_fits whole clear
          · exact ih h

/-- The statements of a source without a fault lie one behind the other, and everything in them
fits. -/
theorem parse_fits (clear : (parse source).root.firstFault? = none) :
    ∃ b, Lined source 0 (parse source).root.children b := by
  unfold parse at clear ⊢
  split at clear
  · rename_i t found
    exact search_fits found clear
  · rw [firstFault?_node, clear_cons, firstFault?_node] at clear
    exact absurd clear.2.1.1 (by decide)

theorem search_program {fuel : Nat} {plans : List Repair.Plan} {t : Tree}
    (h : Repair.search source fuel plans = some t) : t.kind = .program := by
  induction fuel generalizing plans with
  | zero => simp [Repair.search] at h
  | succ fuel ih =>
      cases plans with
      | nil => simp [Repair.search] at h
      | cons plan plans =>
          rw [Repair.search] at h
          split at h
          · rename_i whole
            obtain rfl := Option.some.inj h
            obtain ⟨⟨ts, c⟩, -, rfl⟩ := Option.map_eq_some_iff.1 whole
            rfl
          · exact ih h

theorem parse_program (source : List Char) : (parse source).root.kind = .program := by
  unfold parse
  split
  · rename_i t found
    exact search_program found
  · rfl

theorem parse_source : (parse source).source = source := by
  unfold parse
  split <;> rfl

theorem parse_eq {x : Syntax} (root : (parse x.source).root = x.root) : parse x.source = x := by
  have source : (parse x.source).source = x.source := parse_source
  generalize parse x.source = y at root source
  cases x
  cases y
  cases root
  cases source
  rfl

end PropStories.Tsx
