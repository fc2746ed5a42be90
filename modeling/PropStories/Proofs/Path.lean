import Mathlib.Data.List.Basic
import PropStories.Path

/-!
# Parts of paths

Taking the parent of a path, a path from a base and one path seen from another are done on texts.
Here they are read off the parts: a stretch of consecutive pieces covers a text with just these
parts.
-/

namespace PropStories

namespace Text

theorem beq_of_notMem {d : Char} {w : List Char} (h : d ∉ w) : ∀ c ∈ w, (c == d) = false :=
  fun _ hc => beq_eq_false_iff_ne.2 fun eq => h (eq ▸ hc)

theorem splitWhere_of_none {p : Char → Bool} {w : List Char} (h : ∀ c ∈ w, p c = false) :
    splitWhere p w = [w] := by
  induction w with
  | nil => rfl
  | cons c w ih =>
      have hc := h c List.mem_cons_self
      have hw := ih fun x hx => h x (List.mem_cons_of_mem _ hx)
      simp [splitWhere, hc, hw]

theorem splitWhere_append {p : Char → Bool} {c : Char} (hc : p c = true) (xs ys : List Char) :
    splitWhere p (xs ++ c :: ys) = splitWhere p xs ++ splitWhere p ys := by
  induction xs with
  | nil => simp [splitWhere, hc]
  | cons x xs ih =>
      rw [List.cons_append, splitWhere, splitWhere]
      by_cases hx : p x = true
      · simp [hx, ih]
      · cases hxs : splitWhere p xs with
        | nil => exact absurd hxs (splitWhere_ne_nil p xs)
        | cons piece pieces => simp [hx, ih, hxs]

theorem of_mem_splitWhere {p : Char → Bool} {cs w : List Char} (hw : w ∈ splitWhere p cs) :
    ∀ c ∈ w, p c = false := by
  induction cs generalizing w with
  | nil =>
      cases List.mem_singleton.1 hw
      simp
  | cons c cs ih =>
      rw [splitWhere] at hw
      by_cases hc : p c = true
      · rw [if_pos hc] at hw
        cases hw with
        | head => simp
        | tail _ hw => exact ih hw
      · rw [if_neg hc] at hw
        cases cut : splitWhere p cs with
        | nil => exact absurd cut (splitWhere_ne_nil p cs)
        | cons piece pieces =>
            rw [cut] at hw ih
            cases hw with
            | head => exact List.forall_mem_cons.2 ⟨by simpa using hc, ih List.mem_cons_self⟩
            | tail _ hw => exact ih (List.mem_cons_of_mem _ hw)

theorem splitWhere_append_of_none {p : Char → Bool} {w : List Char} (hw : ∀ c ∈ w, p c = false)
    {cs first : List Char} {rest : List (List Char)} (h : splitWhere p cs = first :: rest) :
    splitWhere p (w ++ cs) = (w ++ first) :: rest := by
  induction w with
  | nil => exact h
  | cons c w ih =>
      have hc := hw c List.mem_cons_self
      rw [List.cons_append, splitWhere, if_neg (by simp [hc]),
        ih fun x hx => hw x (List.mem_cons_of_mem _ hx)]
      rfl

end Text

namespace Path

open Text

/-! ## Pieces of a text -/

def bodyOf (start : Nat) (cs : List Char) : List Piece :=
  bodyPieces start (splitWhere (· == '/') cs)

def counts (w : List Char) : Bool := !w.isEmpty && !isDot w

theorem bodyPieces_cons (start : Nat) (w : List Char) (rest : List (List Char)) :
    bodyPieces start (w :: rest) =
      if counts w then ⟨partOf w, start, start + w.length⟩ :: bodyPieces (start + w.length + 1) rest
      else bodyPieces (start + w.length + 1) rest := by
  have h : (w.isEmpty || isDot w) = !counts w := by simp [counts]
  rw [bodyPieces]
  simp only [h]
  cases counts w <;> rfl

theorem counts_iff {w : List Char} : counts w = true ↔ w ≠ [] ∧ w ≠ ['.'] := by
  simp [counts, isDot]

theorem map_part_bodyPieces (start : Nat) (ws : List (List Char)) :
    (bodyPieces start ws).map (·.part) = (ws.filter counts).map partOf := by
  induction ws generalizing start with
  | nil => rfl
  | cons w ws ih =>
      rw [bodyPieces_cons]
      by_cases h : counts w <;> simp [h, ih]

def bodyParts (cs : List Char) : List PathPart :=
  ((splitWhere (· == '/') cs).filter counts).map partOf

theorem map_part_bodyOf (start : Nat) (cs : List Char) :
    (bodyOf start cs).map (·.part) = bodyParts cs := map_part_bodyPieces start _

theorem bodyParts_append (xs ys : List Char) :
    bodyParts (xs ++ '/' :: ys) = bodyParts xs ++ bodyParts ys := by
  simp [bodyParts, splitWhere_append (p := (· == '/')) (c := '/') rfl]

/-! A text is one stretch without a slash, or such a stretch before a slash and the rest. -/

theorem stretches {motive : List Char → Prop} (cs : List Char)
    (last : ∀ w, (∀ c ∈ w, (c == '/') = false) → motive w)
    (more : ∀ w rest, (∀ c ∈ w, (c == '/') = false) → motive rest → motive (w ++ '/' :: rest)) :
    motive cs := by
  -- The stretch read so far stands in front of the text that is left.
  have read : ∀ w, (∀ c ∈ w, (c == '/') = false) → motive (w ++ cs) := by
    induction cs with
    | nil =>
        intro w hw
        rw [List.append_nil]
        exact last w hw
    | cons c cs ih =>
        intro w hw
        by_cases hc : c = '/'
        · rw [hc]
          exact more w cs hw (ih [] (by simp))
        · have longer := ih (w ++ [c]) fun x hx => by
            cases List.mem_append.1 hx with
            | inl hx => exact hw x hx
            | inr hx => simpa [List.mem_singleton.1 hx] using hc
          rwa [List.append_assoc] at longer
  exact read [] (by simp)

theorem bodyOf_last {w : List Char} (hw : ∀ c ∈ w, (c == '/') = false) (start : Nat) :
    bodyOf start w = if counts w then [⟨partOf w, start, start + w.length⟩] else [] := by
  rw [bodyOf, splitWhere_of_none hw, bodyPieces_cons]
  rfl

theorem bodyOf_more {w : List Char} (hw : ∀ c ∈ w, (c == '/') = false) (start : Nat)
    (rest : List Char) :
    bodyOf start (w ++ '/' :: rest) =
      if counts w then ⟨partOf w, start, start + w.length⟩ :: bodyOf (start + w.length + 1) rest
      else bodyOf (start + w.length + 1) rest := by
  rw [bodyOf, splitWhere_append rfl, splitWhere_of_none hw, List.singleton_append, bodyPieces_cons]
  rfl

/-! ## Stretches of pieces -/

theorem start_le_of_mem_bodyOf {start : Nat} {cs : List Char} {x : Piece}
    (hx : x ∈ bodyOf start cs) : start ≤ x.start ∧ x.start ≤ x.stop := by
  induction cs using stretches generalizing start with
  | last w hw =>
      rw [bodyOf_last hw] at hx
      split at hx
      · cases List.mem_singleton.1 hx
        simp
      · cases hx
  | more w rest hw ih =>
      rw [bodyOf_more hw] at hx
      split at hx
      · cases hx with
        | head => simp
        | tail _ hx =>
            have := ih hx
            omega
      · have := ih hx
        omega

/-- The text up to the end of a piece has just the pieces up to this one. -/
theorem bodyOf_take {start : Nat} {cs : List Char} {front back : List Piece} {x : Piece}
    (h : bodyOf start cs = front ++ x :: back) :
    bodyOf start (cs.take (x.stop - start)) = front ++ [x] := by
  induction cs using stretches generalizing start front with
  | last w hw =>
      rw [bodyOf_last hw] at h
      split at h
      next counted =>
        obtain ⟨rfl, rfl, rfl⟩ : front = [] ∧ x = ⟨partOf w, start, start + w.length⟩ ∧ back = [] := by
          cases front <;> simp_all
        simp only [Nat.add_sub_cancel_left, List.take_length, bodyOf_last hw, counted, if_true,
          List.nil_append]
      next => simp at h
  | more w rest hw ih =>
      have later {front : List Piece} (h : bodyOf (start + w.length + 1) rest = front ++ x :: back) :
          bodyOf start ((w ++ '/' :: rest).take (x.stop - start)) =
            if counts w then ⟨partOf w, start, start + w.length⟩ :: (front ++ [x])
            else front ++ [x] := by
        have bounds := start_le_of_mem_bodyOf (h ▸ List.mem_append_right _ List.mem_cons_self)
        obtain ⟨n, hn⟩ : ∃ n, x.stop - start = w.length + (n + 1) :=
          ⟨x.stop - start - w.length - 1, by omega⟩
        have rest' := ih h
        rw [show x.stop - (start + w.length + 1) = n by omega] at rest'
        rw [hn, List.take_length_add_append, List.take_succ_cons, bodyOf_more hw, rest']
      rw [bodyOf_more hw] at h
      split at h
      next counted =>
        cases front with
        | nil =>
            cases h
            simp [bodyOf_last hw, counted]
        | cons y front =>
            obtain ⟨rfl, tail⟩ := List.cons_eq_cons.1 h
            rw [later tail, if_pos counted]
            rfl
      next uncounted => rw [later h, if_neg uncounted]

/-- The text from the start of a piece has just the pieces from this one. -/
theorem bodyOf_drop {start : Nat} {cs : List Char} {front back : List Piece} {x : Piece}
    (h : bodyOf start cs = front ++ x :: back) :
    bodyOf x.start (cs.drop (x.start - start)) = x :: back := by
  induction cs using stretches generalizing start front with
  | last w hw =>
      have whole := h
      rw [bodyOf_last hw] at h
      split at h
      next counted =>
        obtain ⟨rfl, rfl, rfl⟩ : front = [] ∧ x = ⟨partOf w, start, start + w.length⟩ ∧ back = [] := by
          cases front <;> simp_all
        simpa using whole
      next => simp at h
  | more w rest hw ih =>
      have later {front : List Piece} (h : bodyOf (start + w.length + 1) rest = front ++ x :: back) :
          bodyOf x.start ((w ++ '/' :: rest).drop (x.start - start)) = x :: back := by
        have bounds := start_le_of_mem_bodyOf (h ▸ List.mem_append_right _ List.mem_cons_self)
        obtain ⟨n, hn⟩ : ∃ n, x.start - start = w.length + (n + 1) :=
          ⟨x.start - start - w.length - 1, by omega⟩
        have rest' := ih h
        rw [show x.start - (start + w.length + 1) = n by omega] at rest'
        rw [hn, List.drop_length_add_append, List.drop_succ_cons, rest']
      have whole := h
      rw [bodyOf_more hw] at h
      split at h
      next counted =>
        cases front with
        | nil =>
            obtain ⟨rfl, -⟩ := List.cons_eq_cons.1 h
            simpa using whole
        | cons y front => exact later (List.cons_eq_cons.1 h).2
      next => exact later h

/-! ## What comes first -/

def Plain (cs : List Char) : Prop :=
  cs.head? ≠ some '/' ∧ (splitWhere (· == '/') cs).head? ≠ some ['.']

theorem firsts {motive : List Char → Prop} (cs : List Char)
    (root : ∀ rest, motive ('/' :: rest)) (here : motive ['.'])
    (below : ∀ rest, motive ('.' :: '/' :: rest)) (body : ∀ cs, Plain cs → motive cs) :
    motive cs := by
  by_cases slash : cs.head? = some '/'
  · obtain ⟨rest, rfl⟩ := List.head?_eq_some_iff.1 slash
    exact root rest
  by_cases dot : (splitWhere (· == '/') cs).head? = some ['.']
  · obtain ⟨more, cut⟩ := List.head?_eq_some_iff.1 dot
    induction cs using stretches with
    | last w hw =>
        rw [splitWhere_of_none hw] at cut
        obtain ⟨rfl, -⟩ := List.cons_eq_cons.1 cut
        exact here
    | more w rest hw _ =>
        rw [splitWhere_append rfl, splitWhere_of_none hw] at cut
        obtain ⟨rfl, -⟩ := List.cons_eq_cons.1 cut
        exact below rest
  exact body cs ⟨slash, dot⟩

theorem piecesOf_plain {cs : List Char} (plain : Plain cs) : piecesOf cs = bodyOf 0 cs := by
  unfold piecesOf
  split
  next => exact absurd rfl plain.1
  next =>
    split
    next cut => exact absurd (by rw [cut]; rfl) plain.2
    next => rfl

theorem bodyOf_slash (start : Nat) (rest : List Char) :
    bodyOf start ('/' :: rest) = bodyOf (start + 1) rest := bodyOf_more (w := []) (by simp) start rest

theorem bodyOf_dotSlash (start : Nat) (rest : List Char) :
    bodyOf start ('.' :: '/' :: rest) = bodyOf (start + 2) rest :=
  bodyOf_more (w := ['.']) (by simp) start rest

/-- A text that begins with a piece of the body has nothing in front of its body. -/
theorem piecesOf_of_start {start : Nat} {cs : List Char} {x : Piece} {back : List Piece}
    (h : bodyOf start cs = x :: back) (first : x.start = start) : piecesOf cs = bodyOf 0 cs := by
  have later {start' : Nat} {rest : List Char} (h : bodyOf start' rest = x :: back) :
      start' ≤ start := by
    have := (start_le_of_mem_bodyOf (h ▸ List.mem_cons_self)).1
    omega
  induction cs using firsts with
  | root rest =>
      have := later (bodyOf_slash start rest ▸ h)
      omega
  | here => cases h
  | below rest =>
      have := later (bodyOf_dotSlash start rest ▸ h)
      omega
  | body cs plain => exact piecesOf_plain plain

/-! ## The text that pieces cover -/

def partsOf (cs : List Char) : List PathPart := (piecesOf cs).map (·.part)

theorem partsOf_of_start {start : Nat} {cs : List Char} {x : Piece} {back : List Piece}
    (h : bodyOf start cs = x :: back) (first : x.start = start) : partsOf cs = bodyParts cs := by
  rw [partsOf, piecesOf_of_start h first, map_part_bodyOf]

theorem partsOf_stretch {start : Nat} {cs : List Char} {front mid back : List Piece} {a b : Piece}
    (h : bodyOf start cs = front ++ (a :: mid) ++ back) (last : (a :: mid).getLast? = some b) :
    partsOf ((cs.drop (a.start - start)).take (b.stop - a.start)) = (a :: mid).map (·.part) := by
  have fromStart : bodyOf start cs = front ++ a :: (mid ++ back) := by simpa using h
  have dropped := bodyOf_drop fromStart
  obtain ⟨mid', hb⟩ := List.getLast?_eq_some_iff.1 last
  have toEnd : bodyOf a.start (cs.drop (a.start - start)) = mid' ++ b :: back := by
    rw [dropped, ← List.cons_append, hb, List.append_assoc]
    rfl
  have taken := bodyOf_take toEnd
  rw [← hb] at taken
  rw [partsOf_of_start taken rfl, ← map_part_bodyOf a.start, taken]

theorem partsOf_lead (lead : List Char) {rest : List Char} {part : PathPart}
    {mid back : List Piece} {b : Piece} (long : 0 < lead.length)
    (alone : piecesOf (lead.take 1) = [⟨part, 0, 1⟩])
    (first : ∀ rest, piecesOf (lead ++ rest) = ⟨part, 0, 1⟩ :: bodyOf lead.length rest)
    (h : bodyOf lead.length rest = mid ++ back)
    (last : (⟨part, 0, 1⟩ :: mid : List Piece).getLast? = some b) :
    partsOf ((lead ++ rest).take b.stop) = part :: mid.map (·.part) := by
  cases getLast : mid.getLast? with
  | none =>
      cases List.getLast?_eq_none_iff.1 getLast
      obtain rfl : ⟨part, 0, 1⟩ = b := by simpa using last
      rw [List.take_append_of_le_length long, partsOf, alone]
      rfl
  | some b' =>
      obtain ⟨mid', rfl⟩ := List.getLast?_eq_some_iff.1 getLast
      obtain rfl : b' = b := by simpa [List.getLast?_cons] using last
      have member : b' ∈ bodyOf lead.length rest := by simp [h]
      have bounds := start_le_of_mem_bodyOf member
      have toEnd : bodyOf lead.length rest = mid' ++ b' :: back := by simpa using h
      have taken := bodyOf_take toEnd
      obtain ⟨n, hn⟩ : ∃ n, b'.stop = lead.length + n := ⟨b'.stop - lead.length, by omega⟩
      rw [hn, Nat.add_sub_cancel_left] at taken
      rw [hn, List.take_length_add_append, partsOf, first, taken]
      rfl

theorem parts_eq (p : Path) : p.parts = partsOf p.text.toList := rfl

theorem parts_cover_cons {p : Path} {a b : Piece} {mid : List Piece}
    (last : (a :: mid).getLast? = some b) :
    (p.cover (a :: mid)).parts =
      partsOf ((p.text.toList.drop a.start).take (b.stop - a.start)) := by
  rw [cover, List.head?_cons, last, parts_eq, String.toList_ofList]

/-- Consecutive pieces of a path cover a path with just their parts. -/
theorem parts_cover {p : Path} {front mid back : List Piece} (h : p.pieces = front ++ mid ++ back) :
    (p.cover mid).parts = mid.map (·.part) := by
  cases mid with
  | nil => rfl
  | cons a mid =>
    obtain ⟨b, last⟩ : ∃ b, (a :: mid).getLast? = some b := ⟨_, List.getLast?_cons⟩
    rw [parts_cover_cons last]
    rw [pieces] at h
    generalize p.text.toList = cs at h ⊢
    -- The stretch either begins with what comes first or lies in the body.
    have inBody {n : Nat} {rest : List Char} {front : List Piece}
        (h : bodyOf n rest = front ++ a :: mid ++ back) (shift : cs.drop n = rest) :
        partsOf ((cs.drop a.start).take (b.stop - a.start)) = (a :: mid).map (·.part) := by
      have member : a ∈ bodyOf n rest := by simp [h]
      have bounds := start_le_of_mem_bodyOf member
      rw [← partsOf_stretch h last, ← shift, List.drop_drop]
      congr 3
      omega
    induction cs using firsts with
    | root rest =>
        cases front with
        | nil =>
            obtain ⟨rfl, tail⟩ := List.cons_eq_cons.1 h
            exact partsOf_lead ['/'] (by decide) rfl (fun _ => rfl) tail last
        | cons _ front => exact inBody (List.cons_eq_cons.1 h).2 rfl
    | here =>
        cases front with
        | nil =>
            obtain ⟨rfl, tail⟩ := List.cons_eq_cons.1 h
            cases mid with
            | nil => cases last; rfl
            | cons _ _ => cases tail
        | cons _ front => cases front <;> cases (List.cons_eq_cons.1 h).2
    | below rest =>
        cases front with
        | nil =>
            obtain ⟨rfl, tail⟩ := List.cons_eq_cons.1 h
            exact partsOf_lead ['.', '/'] (by decide) rfl (fun _ => rfl) tail last
        | cons _ front => exact inBody (List.cons_eq_cons.1 h).2 rfl
    | body cs plain => exact inBody (piecesOf_plain plain ▸ h) rfl

/-! ## Parents, relative paths and joined paths -/

theorem parts_parent? {p q : Path} (h : p.parent? = some q) : q.parts = p.parts.dropLast := by
  unfold parent? at h
  split at h
  next => cases h
  next last hlast =>
    split at h
    next => cases h
    next =>
      cases h
      obtain ⟨front, whole⟩ := List.getLast?_eq_some_iff.1 hlast
      have front_eq : p.pieces.dropLast = front := by rw [whole, List.dropLast_concat]
      have fromFirst : p.pieces = [] ++ front ++ [last] := whole
      rw [front_eq, parts_cover fromFirst, parts, whole]
      simp

theorem parent?_eq_none_iff {p : Path} :
    p.parent? = none ↔ p.parts = [] ∨ p.parts.getLast? = some .root := by
  rw [parts, List.map_eq_nil_iff, List.getLast?_map, ← List.getLast?_eq_none_iff, parent?]
  cases p.pieces.getLast? with
  | none => simp
  | some last => by_cases h : last.part = .root <;> simp [h]

theorem piecesBehind?_eq_some_iff {qs : List PathPart} {ps rest : List Piece} :
    piecesBehind? qs ps = some rest ↔ ∃ front, ps = front ++ rest ∧ front.map (·.part) = qs := by
  induction qs generalizing ps with
  | nil => simp [piecesBehind?]
  | cons q qs ih =>
      cases ps with
      | nil => simp [piecesBehind?]
      | cons p ps =>
          rw [piecesBehind?]
          by_cases h : p.part = q
          · rw [if_pos (by simpa using h), ih]
            constructor
            · rintro ⟨front, rfl, rfl⟩
              exact ⟨p :: front, rfl, by simp [h]⟩
            · rintro ⟨front, whole, mapped⟩
              cases front with
              | nil => cases mapped
              | cons x front => exact ⟨front, by simp_all⟩
          · rw [if_neg (by simpa using h)]
            constructor
            · intro none
              cases none
            · rintro ⟨front, whole, mapped⟩
              cases front with
              | nil => cases mapped
              | cons x front => simp_all

theorem parts_from? {p base rest : Path} (h : p.from? base = some rest) :
    p.parts = base.parts ++ rest.parts := by
  obtain ⟨mid, behind, rfl⟩ := Option.map_eq_some_iff.1 h
  obtain ⟨front, whole, mapped⟩ := piecesBehind?_eq_some_iff.1 behind
  have toLast : p.pieces = front ++ mid ++ [] := by rw [List.append_nil, whole]
  rw [parts_cover toLast, parts, whole, List.map_append, mapped]

theorem startsWith_iff {p base : Path} : p.startsWith base = true ↔ base.parts <+: p.parts := by
  rw [startsWith, Option.isSome_iff_exists]
  constructor
  · rintro ⟨mid, behind⟩
    obtain ⟨front, whole, mapped⟩ := piecesBehind?_eq_some_iff.1 behind
    exact ⟨mid.map (·.part), by rw [← mapped, ← List.map_append, ← whole, parts]⟩
  · rintro ⟨rest, whole⟩
    obtain ⟨front, mid, split, mapped, -⟩ := List.map_eq_append_iff.1 whole.symm
    exact ⟨mid, piecesBehind?_eq_some_iff.2 ⟨front, split, mapped⟩⟩

theorem isSome_from? {p base : Path} : (p.from? base).isSome = p.startsWith base := by
  rw [from?, Option.isSome_map, startsWith]

theorem partsOf_slash (rest : List Char) : partsOf ('/' :: rest) = .root :: bodyParts rest := by
  rw [← map_part_bodyOf 1]
  rfl

theorem partsOf_below (rest : List Char) : partsOf ('.' :: '/' :: rest) = .here :: bodyParts rest := by
  rw [← map_part_bodyOf 2]
  rfl

theorem partsOf_plain {cs : List Char} (plain : Plain cs) : partsOf cs = bodyParts cs := by
  rw [partsOf, piecesOf_plain plain, map_part_bodyOf]

theorem of_mem_bodyParts {cs : List Char} {x : PathPart} (hx : x ∈ bodyParts cs) :
    ∃ w, counts w = true ∧ (∀ c ∈ w, (c == '/') = false) ∧ partOf w = x := by
  obtain ⟨w, member, rfl⟩ := List.mem_map.1 hx
  obtain ⟨split, counted⟩ := List.mem_filter.1 member
  exact ⟨w, counted, of_mem_splitWhere split, rfl⟩

theorem partOf_of_counts {w : List Char} (counted : counts w = true) :
    partOf w = if w = ['.', '.'] then .up else .name (String.ofList w) := by
  have more : isDot w = false := by
    simp only [counts, Bool.and_eq_true, Bool.not_eq_true'] at counted
    exact counted.2
  unfold partOf
  simp [more]

theorem root_notMem_bodyParts (cs : List Char) : .root ∉ bodyParts cs := by
  intro member
  obtain ⟨w, counted, -, isRoot⟩ := of_mem_bodyParts member
  rw [partOf_of_counts counted] at isRoot
  split at isRoot <;> cases isRoot

theorem here_notMem_bodyParts (cs : List Char) : .here ∉ bodyParts cs := by
  intro member
  obtain ⟨w, counted, -, isHere⟩ := of_mem_bodyParts member
  rw [partOf_of_counts counted] at isHere
  split at isHere <;> cases isHere

def IsName (n : String) : Prop :=
  counts n.toList = true ∧ n.toList ≠ ['.', '.'] ∧ ∀ c ∈ n.toList, (c == '/') = false

instance (n : String) : Decidable (IsName n) :=
  have : Decidable (∀ c ∈ n.toList, (c == '/') = false) := List.decidableBAll _ _
  inferInstanceAs (Decidable (_ ∧ _ ∧ _))

theorem isName_of_mem_parts {p : Path} {n : String} (h : .name n ∈ p.parts) : IsName n := by
  obtain ⟨cs, member⟩ : ∃ cs, .name n ∈ bodyParts cs := by
    rw [parts_eq] at h
    generalize p.text.toList = cs at h
    induction cs using firsts with
    | root rest => exact ⟨rest, by simpa [partsOf_slash] using h⟩
    | here => cases List.mem_singleton.1 h
    | below rest => exact ⟨rest, by simpa [partsOf_below] using h⟩
    | body cs plain => exact ⟨cs, by rwa [partsOf_plain plain] at h⟩
  obtain ⟨w, counted, noSlash, isName⟩ := of_mem_bodyParts member
  rw [partOf_of_counts counted] at isName
  split at isName
  next => cases isName
  next other =>
    cases isName
    rw [IsName, String.toList_ofList]
    exact ⟨counted, other, noSlash⟩

theorem IsName.ne_nil {n : String} (h : IsName n) : n.toList ≠ [] := (counts_iff.1 h.1).1

theorem IsName.bodyParts {n : String} (h : IsName n) : bodyParts n.toList = [.name n] := by
  obtain ⟨counted, other, noSlash⟩ := h
  rw [Path.bodyParts, splitWhere_of_none noSlash, List.filter_cons_of_pos counted]
  simp [partOf_of_counts counted, other]

theorem IsName.relative {n : String} (h : IsName n) : (Path.mk n).isAbsolute = false := by
  rw [isAbsolute, beq_eq_false_iff_ne]
  intro slash
  have := h.2.2 '/' (List.mem_of_mem_head? slash)
  simp at this

/-- Only the first part of a path can be the root or a dot. -/
theorem of_mem_tail {p : Path} {x : PathPart} (h : x ∈ p.parts.tail) : x ≠ .root ∧ x ≠ .here := by
  have body {cs : List Char} (h : x ∈ bodyParts cs) : x ≠ .root ∧ x ≠ .here :=
    ⟨fun root => root_notMem_bodyParts cs (root ▸ h), fun here => here_notMem_bodyParts cs (here ▸ h)⟩
  rw [parts_eq] at h
  generalize p.text.toList = cs at h
  induction cs using firsts with
  | root rest => exact body (partsOf_slash rest ▸ h)
  | here => cases h
  | below rest => exact body (partsOf_below rest ▸ h)
  | body cs plain => exact body (List.mem_of_mem_tail (partsOf_plain plain ▸ h))

theorem isAbsolute_iff {p : Path} : p.isAbsolute = true ↔ p.parts.head? = some .root := by
  rw [isAbsolute, parts_eq, beq_iff_eq]
  induction p.text.toList using firsts with
  | root rest => simp [partsOf_slash]
  | here => decide
  | below rest => simp [partsOf_below]
  | body cs plain =>
      rw [partsOf_plain plain]
      simp only [plain.1, false_iff]
      exact fun first => root_notMem_bodyParts cs (List.mem_of_mem_head? first)

theorem partsOf_append {xs : List Char} (nonempty : xs ≠ []) (ys : List Char) :
    partsOf (xs ++ '/' :: ys) = partsOf xs ++ bodyParts ys := by
  induction xs using firsts with
  | root rest => rw [List.cons_append, partsOf_slash, partsOf_slash, bodyParts_append, List.cons_append]
  | here => exact partsOf_below ys
  | below rest =>
      rw [List.cons_append, List.cons_append, partsOf_below, partsOf_below, bodyParts_append,
        List.cons_append]
  | body xs plain =>
      have longer : Plain (xs ++ '/' :: ys) := by
        rw [Plain, List.head?_append_of_ne_nil _ nonempty, splitWhere_append rfl,
          List.head?_append_of_ne_nil _ (splitWhere_ne_nil _ _)]
        exact plain
      rw [partsOf_plain plain, partsOf_plain longer, bodyParts_append]

theorem parts_join {p q : Path} (nonempty : p.text ≠ "") (relative : q.isAbsolute = false) :
    (p.join q).parts = p.parts ++ bodyParts q.text.toList := by
  have nonempty' : p.text.toList ≠ [] := fun h => nonempty (String.toList_eq_nil_iff.1 h)
  rw [join, relative, if_neg (by simp)]
  split
  next none => exact absurd (List.getLast?_eq_none_iff.1 none) nonempty'
  next slash =>
    obtain ⟨front, whole⟩ := List.getLast?_eq_some_iff.1 slash
    rw [parts_eq, parts_eq, String.toList_append, whole, List.append_assoc, List.singleton_append]
    cases front with
    | nil => rw [List.nil_append, partsOf_slash, List.nil_append, partsOf_slash]; rfl
    | cons c front =>
        rw [partsOf_append (by simp), partsOf_append (by simp)]
        simp [bodyParts, splitWhere, counts]
  next =>
    rw [parts_eq, parts_eq, String.toList_append, String.toList_append, List.append_assoc,
      show ("/" : String).toList = ['/'] from rfl, List.singleton_append, partsOf_append nonempty']

theorem bodyParts_of_relative {p : Path} (relative : p.isAbsolute = false) :
    bodyParts p.text.toList = p.parts.filter (· != .here) := by
  have kept (cs : List Char) : (bodyParts cs).filter (· != .here) = bodyParts cs := by
    rw [List.filter_eq_self]
    intro x hx
    have other : x ≠ .here := fun h => here_notMem_bodyParts cs (h ▸ hx)
    simpa using other
  rw [isAbsolute, beq_eq_false_iff_ne] at relative
  rw [parts_eq]
  generalize p.text.toList = cs at relative ⊢
  induction cs using firsts with
  | root rest => exact absurd rfl relative
  | here => rfl
  | below rest =>
      rw [partsOf_below, List.filter_cons_of_neg (by decide), kept, ← map_part_bodyOf 0,
        bodyOf_dotSlash, map_part_bodyOf]
  | body cs plain => rw [partsOf_plain plain, kept]

theorem join_of_isAbsolute {p q : Path} (absolute : q.isAbsolute = true) : p.join q = q := by
  rw [join, if_pos absolute]

theorem text_ne_empty {p : Path} (h : p.parts ≠ []) : p.text ≠ "" := by
  intro empty
  exact h (by rw [parts_eq, empty]; rfl)

theorem parts_ne_nil {p : Path} (nonempty : p.text ≠ "") : p.parts ≠ [] := by
  have nonempty : p.text.toList ≠ [] := fun h => nonempty (String.toList_eq_nil_iff.1 h)
  rw [parts_eq]
  generalize p.text.toList = cs at nonempty
  induction cs using firsts with
  | root rest => simp [partsOf_slash]
  | here => decide
  | below rest => simp [partsOf_below]
  | body cs plain =>
      rw [partsOf_plain plain]
      induction cs using stretches with
      | last w hw =>
          have counted : counts w = true := counts_iff.2 ⟨nonempty, fun dot => plain.2 (by
            rw [splitWhere_of_none hw, dot]; rfl)⟩
          simp [bodyParts, splitWhere_of_none hw, counted]
      | more w rest hw _ =>
          have counted : counts w = true := by
            refine counts_iff.2 ⟨fun none => plain.1 (by simp [none]), fun dot => plain.2 ?_⟩
            rw [splitWhere_append rfl, splitWhere_of_none hw, dot]
            rfl
          simp [bodyParts, splitWhere_append, splitWhere_of_none hw, counted]

theorem parts_join_name {p : Path} {n : String} (nonempty : p.text ≠ "") (named : IsName n) :
    (p.join ⟨n⟩).parts = p.parts ++ [.name n] := by
  rw [parts_join nonempty named.relative, named.bodyParts]

theorem parts_joinAll {p : Path} {names : List String} (nonempty : p.text ≠ "")
    (named : ∀ n ∈ names, IsName n) :
    (names.foldl (fun p n => p.join ⟨n⟩) p).parts = p.parts ++ names.map .name := by
  induction names generalizing p with
  | nil => simp
  | cons n names ih =>
      have joined := parts_join_name nonempty (named n List.mem_cons_self)
      have longer : (p.join ⟨n⟩).text ≠ "" := text_ne_empty (by simp [joined])
      rw [List.foldl_cons, ih longer fun m hm => named m (List.mem_cons_of_mem n hm), joined]
      simp

/-! ## Order -/

def rank : PathPart → Nat
  | .root => 0
  | .here => 1
  | .up => 2
  | .name _ => 3

def nameText : PathPart → String
  | .name n => n
  | _ => ""

theorem partOrder_eq : partOrder = compareLex (compareOn rank) (compareOn nameText) := by
  funext a b
  cases a <;> cases b <;> rfl

theorem compareParts_eq (xs ys : List PathPart) :
    compareParts xs ys = List.compareLex partOrder xs ys := by
  induction xs generalizing ys with
  | nil => cases ys <;> rfl
  | cons x xs ih =>
      cases ys with
      | nil => rfl
      | cons y ys =>
          rw [compareParts, List.compareLex_cons_cons, ih]

instance : Std.TransCmp compareParts := by
  rw [show compareParts = List.compareLex partOrder from funext fun xs => funext (compareParts_eq xs),
    partOrder_eq]
  infer_instance

theorem le_iff {p q : Path} : p.le q = true ↔ (compareParts p.parts q.parts).isLE = true := by
  rw [le]
  cases compareParts p.parts q.parts <;> decide

theorem le_trans {p q r : Path} (first : p.le q = true) (second : q.le r = true) :
    p.le r = true :=
  le_iff.2 (Std.TransCmp.isLE_trans (le_iff.1 first) (le_iff.1 second))

theorem le_total (p q : Path) : (p.le q || q.le p) = true := by
  have swap : compareParts p.parts q.parts = (compareParts q.parts p.parts).swap :=
    Std.OrientedCmp.eq_swap
  rw [Bool.or_eq_true, le_iff, le_iff, swap]
  cases compareParts q.parts p.parts <;> decide

end Path

end PropStories
