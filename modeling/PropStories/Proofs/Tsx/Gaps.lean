import PropStories.Proofs.Tsx.Reading

/-!
# Gaps between tokens

A gap is white space and whole comments. What a cursor passes over without a repair is a gap, and
in front of a token a gap is passed over to its end, whatever the token. The same text is therefore
a gap wherever it stands.
-/

namespace PropStories.Tsx

open Lexeme (blockCommentTail? comment? isLineEnd)

/-- White space and whole comments; the end of a line closes a line comment. -/
inductive IsGap : List Char → Prop
  | nil : IsGap []
  | blank {c : Char} {cs : List Char} (blank : Lexeme.isGap c = true) (more : IsGap cs) :
      IsGap (c :: cs)
  | block {body cs : List Char} (closed : blockCommentTail? body = some body.length)
      (more : IsGap cs) : IsGap ('/' :: '*' :: (body ++ cs))
  | line {body cs : List Char} {e : Char} (inside : ∀ c ∈ body, isLineEnd c = false)
      (ends : isLineEnd e = true) (more : IsGap (e :: cs)) :
      IsGap ('/' :: '/' :: (body ++ e :: cs))

def Firm (cs : List Char) : Prop :=
  ∀ c rest, cs = c :: rest → Lexeme.isGap c = false ∧ comment? cs = none

theorem firm_nil : Firm [] := nofun

theorem firm_cons {c : Char} {cs : List Char} (gap : Lexeme.isGap c = false) (slash : c ≠ '/') :
    Firm (c :: cs) := by
  rintro d rest eq
  obtain ⟨rfl, rfl⟩ := List.cons.inj eq
  refine ⟨gap, ?_⟩
  unfold comment?
  split <;> simp_all

theorem blockCommentTail?_append {body rest : List Char} {n : Nat}
    (h : blockCommentTail? body = some n) : blockCommentTail? (body ++ rest) = some n := by
  induction body generalizing n with
  | nil => simp [blockCommentTail?] at h
  | cons c cs ih =>
      rw [List.cons_append]
      rw [blockCommentTail?] at h ⊢
      cases cs with
      | nil => simp [blockCommentTail?] at h
      | cons d ds =>
          rw [List.cons_append, List.head?_cons]
          rw [List.head?_cons] at h
          split at h
          · rename_i ends
            rw [if_pos ends]
            exact h
          · rename_i goes
            rw [if_neg goes]
            obtain ⟨m, hm, rfl⟩ := Option.map_eq_some_iff.1 h
            rw [← List.cons_append, ih hm]
            rfl

/-! ## Passing over a gap -/

namespace Cursor

theorem scanGap_inside {inside n : Nat} {cs : List Char} {br : Bool} (h : inside ≤ cs.length) :
    scanGap [] inside n cs br = scanGap [] 0 (n + inside) (cs.drop inside) br := by
  induction inside generalizing n cs with
  | zero => rfl
  | succ inside ih =>
      cases cs with
      | nil => simp at h
      | cons c cs =>
          rw [scanGap, ih (Nat.le_of_succ_le_succ h), List.drop_succ_cons]
          congr 1
          omega

theorem scanGap_comment {len n : Nat} {cs : List Char} {br : Bool}
    (gap : ∀ c rest, cs = c :: rest → Lexeme.isGap c = false) (h : comment? cs = some len) :
    scanGap [] 0 n cs br =
      let g := scanGap [] 0 (n + len) (cs.drop len) br
      { g with trees := .node .comment none n (n + len) [] :: g.trees } := by
  obtain ⟨positive, short⟩ := comment?_bounds h
  cases cs with
  | nil => simp [comment?] at h
  | cons c cs =>
      rw [List.length_cons] at short
      have drop : (c :: cs).drop len = cs.drop (len - 1) := by
        rw [← Nat.sub_add_cancel positive, List.drop_succ_cons, Nat.add_sub_cancel]
      have place : n + 1 + (len - 1) = n + len := by omega
      rw [scanGap, skipFrom?, List.findSome?_nil]
      simp only [gap c cs rfl, Bool.false_eq_true, if_false, h]
      rw [scanGap_inside (by omega), place, drop]

theorem scanGap_firm {cs : List Char} (firm : Firm cs) (n : Nat) (br : Bool) :
    scanGap [] 0 n cs br = ⟨[], n, cs, cs, br⟩ := by
  cases cs with
  | nil => rfl
  | cons c cs =>
      obtain ⟨gap, comment⟩ := firm c cs rfl
      rw [scanGap, skipFrom?, List.findSome?_nil]
      simp only [gap, Bool.false_eq_true, if_false, comment]

theorem scanGap_gap {g rest : List Char} (h : IsGap g) (firm : Firm rest) (n : Nat) (br : Bool) :
    (scanGap [] 0 n (g ++ rest) br).ahead = rest ∧
      (scanGap [] 0 n (g ++ rest) br).next = n + g.length := by
  induction h generalizing n br with
  | nil =>
      rw [List.nil_append, scanGap_firm firm]
      exact ⟨rfl, rfl⟩
  | @blank c cs blank more ih =>
      obtain ⟨ahead, next⟩ := ih (n + 1) (br || c == '\n')
      rw [List.cons_append, scanGap, skipFrom?, List.findSome?_nil]
      simp only [blank, if_true, ahead, next, List.length_cons, true_and]
      omega
  | @block body cs closed more ih =>
      have comment : comment? ('/' :: '*' :: (body ++ (cs ++ rest))) = some (body.length + 2) := by
        rw [comment?, blockCommentTail?_append closed]
        rfl
      obtain ⟨ahead, next⟩ := ih (n + (body.length + 2)) br
      rw [List.cons_append, List.cons_append, List.append_assoc,
        scanGap_comment (by rintro c r eq; obtain ⟨rfl, -⟩ := List.cons.inj eq; decide) comment]
      simp only [List.drop_succ_cons, List.drop_left, ahead, next, List.length_cons,
        List.length_append, true_and]
      omega
  | @line body cs e inside ends more ih =>
      have comment : comment? ('/' :: '/' :: (body ++ (e :: cs ++ rest))) =
          some (body.length + 2) := by
        rw [comment?, List.cons_append, List.takeWhile_append_of_pos (by simpa using inside),
          List.takeWhile_cons_of_neg (by simp [ends]), List.append_nil]
      obtain ⟨ahead, next⟩ := ih (n + (body.length + 2)) br
      rw [List.cons_append, List.cons_append, List.append_assoc,
        scanGap_comment (by rintro c r eq; obtain ⟨rfl, -⟩ := List.cons.inj eq; decide) comment]
      simp only [List.drop_succ_cons, List.drop_left, ahead, next, List.length_cons,
        List.length_append, true_and]
      omega

/-! ## Cursors without repairs -/

def behind (n : Nat) (cs : List Char) : Cursor := after [] false n cs

@[simp] theorem behind_place (n : Nat) (cs : List Char) : (behind n cs).place = n := rfl

@[simp] theorem behind_rest (n : Nat) (cs : List Char) : (behind n cs).rest = cs := rfl

@[simp] theorem behind_repairs (n : Nat) (cs : List Char) : (behind n cs).repairs = [] := rfl

theorem gap_behind_extra (n : Nat) (cs : List Char) : (behind n cs).gap.all Tree.isExtra = true :=
  scanGap_extras _ _ _ _ _

theorem ahead_behind {g cs : List Char} (h : IsGap g) (firm : Firm cs) (n : Nat) :
    (behind n (g ++ cs)).ahead = cs := by
  exact (scanGap_gap h firm n false).1

theorem next_behind {g cs : List Char} (h : IsGap g) (firm : Firm cs) (n : Nat) :
    (behind n (g ++ cs)).next = n + g.length := by
  exact (scanGap_gap h firm n false).2

theorem gap_behind {cs : List Char} (firm : Firm cs) (n : Nat) : (behind n cs).gap = [] := by
  simp only [behind, after, scanGap_firm firm]

end Cursor

/-! ## What has been passed over -/

theorem blockCommentTail?_take {cs : List Char} {n : Nat} (h : blockCommentTail? cs = some n) :
    blockCommentTail? (cs.take n) = some n := by
  induction cs generalizing n with
  | nil => simp [blockCommentTail?] at h
  | cons c cs ih =>
      rw [blockCommentTail?] at h
      split at h
      · rename_i ends
        rw [Bool.and_eq_true, beq_iff_eq, beq_iff_eq] at ends
        obtain ⟨rfl, head⟩ := ends
        obtain ⟨rest, rfl⟩ := List.head?_eq_some_iff.1 head
        obtain rfl := Option.some.inj h
        rfl
      · rename_i goes
        obtain ⟨m, hm, rfl⟩ := Option.map_eq_some_iff.1 h
        have head : (cs.take m).head? = cs.head? := by
          cases cs with
          | nil => simp [blockCommentTail?] at hm
          | cons d ds =>
              cases m with
              | zero => 
                  rw [blockCommentTail?] at hm
                  split at hm
                  · simp at hm
                  · simp at hm
              | succ m => rfl
        rw [List.take_succ_cons, blockCommentTail?, head, if_neg goes, ih hm]
        rfl

theorem isGap_comment {cs g ahead : List Char} {len : Nat} (h : comment? cs = some len)
    (behind : cs.drop len = g ++ ahead) (more : IsGap g) (firm : Firm ahead)
    (token : ahead ≠ []) : IsGap (cs.take len ++ g) := by
  unfold comment? at h
  split at h
  · rename_i text
    obtain rfl := Option.some.inj h
    rw [List.drop_succ_cons, List.drop_succ_cons] at behind
    rw [List.take_succ_cons, List.take_succ_cons, List.cons_append, List.cons_append]
    have parts := List.takeWhile_append_dropWhile (p := fun c => !isLineEnd c) (l := text)
    generalize inside_eq : text.takeWhile (fun c => !isLineEnd c) = inside at *
    generalize tail_eq : text.dropWhile (fun c => !isLineEnd c) = tail at *
    subst parts
    rw [List.drop_left] at behind
    rw [List.take_left]
    subst behind
    have ends {e : Char} {es : List Char} (eq : g ++ ahead = e :: es) : isLineEnd e = true := by
      have := List.head?_dropWhile_not (fun c => !isLineEnd c) (inside ++ (g ++ ahead))
      rw [tail_eq, eq] at this
      simpa using this
    cases g with
    | nil =>
        cases ahead with
        | nil => contradiction
        | cons e es =>
            have gap := (firm e es rfl).1
            have blank : Lexeme.isGap e = true := by
              have := ends (List.nil_append _)
              unfold isLineEnd at this
              simp only [Bool.or_eq_true, beq_iff_eq] at this
              rcases this with ((rfl | rfl) | eq) | eq
              · decide
              · decide
              · simp [Lexeme.isGap, Text.isBlank, eq]
              · simp [Lexeme.isGap, Text.isBlank, eq]
            rw [gap] at blank
            contradiction
    | cons e g =>
        refine .line (fun c hc => ?_) (ends rfl) more
        have plain : inside.all (fun c => !isLineEnd c) = true := inside_eq ▸ List.all_takeWhile
        simpa using List.all_eq_true.1 plain c hc
  · rename_i text
    obtain ⟨m, hm, rfl⟩ := Option.map_eq_some_iff.1 h
    have length : (text.take m).length = m :=
      List.length_take_of_le (blockCommentTail?_le hm)
    refine .block ?_ more
    rw [length]
    exact blockCommentTail?_take hm
  · contradiction

/-- What is passed over in front of a token, without a fault, is a gap. -/
theorem isGap_scanGap {repairs : List Repair} {inside n : Nat} {cs : List Char} {br : Bool}
    (h : inside ≤ cs.length) (clear : Clear (Cursor.scanGap repairs inside n cs br).trees)
    (token : (Cursor.scanGap repairs inside n cs br).ahead ≠ []) :
    ∃ g, IsGap g ∧ cs.drop inside = g ++ (Cursor.scanGap repairs inside n cs br).ahead ∧
      (Cursor.scanGap repairs inside n cs br).next = n + inside + g.length ∧
      Firm (Cursor.scanGap repairs inside n cs br).ahead := by
  fun_induction Cursor.scanGap repairs inside n cs br with
  | case1 => contradiction
  | case2 inside n c cs br ih =>
      obtain ⟨g, gap, eq, next, firm⟩ := ih (Nat.le_of_succ_le_succ h) clear token
      exact ⟨g, gap, eq, by omega, firm⟩
  | case3 =>
      rw [clear_cons, firstFault?_node] at clear
      exact absurd clear.1.1 (by decide)
  | case4 n c cs br _ blank ih =>
      obtain ⟨g, gap, eq, next, firm⟩ := ih (Nat.zero_le _) clear token
      refine ⟨c :: g, .blank blank gap, ?_, ?_, firm⟩
      · rw [List.drop_zero] at eq ⊢
        exact congrArg (c :: ·) eq
      · rw [List.length_cons]
        omega
  | case5 n c cs br _ _ len hlen g ih =>
      obtain ⟨positive, short⟩ := comment?_bounds hlen
      rw [List.length_cons] at short
      obtain ⟨more, gap, eq, next, firm⟩ := ih (by omega) (clear_cons.1 clear).2 token
      have drop : (c :: cs).drop len = cs.drop (len - 1) := by
        rw [← Nat.sub_add_cancel positive, List.drop_succ_cons, Nat.add_sub_cancel]
      refine ⟨(c :: cs).take len ++ more, isGap_comment hlen (drop.trans eq) gap firm token,
        ?_, ?_, firm⟩
      · rw [List.drop_zero, List.append_assoc, ← eq, ← drop, List.take_append_drop]
      · rw [List.length_append, List.length_take_of_le (by simpa using short)]
        have next : g.next = n + 1 + (len - 1) + more.length := next
        show g.next = _
        omega
  | case6 n c cs br _ gap comment =>
      refine ⟨[], .nil, rfl, rfl, ?_⟩
      rintro d rest eq
      obtain ⟨rfl, rfl⟩ := List.cons.inj eq
      exact ⟨by simpa using gap, comment⟩

end PropStories.Tsx
