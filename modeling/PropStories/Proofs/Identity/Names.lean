import PropStories.Identity
import PropStories.Proofs.Path

/-!
# Characters of component names

The name of a component is made of the letters, numerals, underscores and dollar signs of a file
name. Only the characters of Unicode beyond ASCII can come out otherwise: of these the upper case
decides.
-/

namespace PropStories

namespace Text

/-! ## Upper case -/

/-- What a code point of ASCII becomes is a capital, or itself and no small letter. -/
theorem toUpper_cases {c : Char} (ascii : c.toNat < 128) :
    c.toUpper.isUpper = true ∨ c.toUpper = c ∧ c.isLower = false := by
  have all : ∀ n < 128, (Char.ofNat n).toUpper.isUpper = true ∨
      (Char.ofNat n).toUpper = Char.ofNat n ∧ (Char.ofNat n).isLower = false := by decide +kernel
  simpa using all c.toNat ascii

def CaseRun.Leads (r : CaseRun) : Prop :=
  r.last < 128 ∨ (r.first = r.last ∧ (Char.ofNat ((r.first : Int) + r.shift).toNat).isUpper = true) ∨
    (128 : Int) ≤ r.first + r.shift ∧
      ((r.last : Int) + r.shift < 0xD800 ∨
        (0xDFFF : Int) < r.first + r.shift ∧ (r.last : Int) + r.shift < 0x110000)

instance (r : CaseRun) : Decidable r.Leads := inferInstanceAs (Decidable (_ ∨ _ ∨ _))

theorem caseRuns_lead : ∀ r ∈ caseRuns, r.Leads := by decide +kernel

theorem longUpperCases_lead : ∀ x ∈ longUpperCases, x.2 ≠ [] ∧ ∀ u ∈ x.2,
    (Char.ofNat u).isUpper = true ∨ 128 ≤ (Char.ofNat u).toNat := by decide +kernel

theorem mem_of_lookup {n : Nat} {us : List Nat} (h : longUpperCases.lookup n = some us) :
    (n, us) ∈ longUpperCases := by
  obtain ⟨front, back, split, -⟩ := List.lookup_eq_some_iff.1 h
  rw [split]
  exact List.mem_append_right _ List.mem_cons_self

theorem upperCase_ne_nil (c : Char) : upperCase c ≠ [] := by
  unfold upperCase
  simp only
  split
  next => simp
  next =>
    split
    next us found => simpa using (longUpperCases_lead _ (mem_of_lookup found)).1
    next => split <;> simp

theorem CaseRun.Leads.shifted {r : CaseRun} (h : r.Leads) {n : Nat} (covers : r.covers n = true)
    (beyond : 128 ≤ n) : (Char.ofNat ((n : Int) + r.shift).toNat).isUpper = true ∨
      128 ≤ (Char.ofNat ((n : Int) + r.shift).toNat).toNat := by
  simp only [CaseRun.covers, Bool.and_eq_true, decide_eq_true_eq] at covers
  obtain ⟨⟨first, last⟩, -⟩ := covers
  obtain small | ⟨single, capital⟩ | ⟨far, valid⟩ := h
  · omega
  · obtain rfl : n = r.first := by omega
    exact .inl capital
  · have isChar : ((n : Int) + r.shift).toNat.isValidChar := by
      rw [Nat.isValidChar]
      omega
    right
    rw [Char.ofNat, dif_pos isChar]
    show 128 ≤ ((n : Int) + r.shift).toNat
    omega

theorem of_mem_upperCase {c d : Char} (h : d ∈ upperCase c) (ascii : d.toNat < 128) :
    d.isUpper = true ∨ d = c ∧ c.isLower = false := by
  have capital (h : d.isUpper = true ∨ 128 ≤ d.toNat) : d.isUpper = true :=
    h.resolve_right (Nat.not_le.2 ascii)
  unfold upperCase at h
  simp only at h
  split at h
  next small =>
    obtain rfl := List.mem_singleton.1 h
    exact toUpper_cases small
  next large =>
    have beyond : 128 ≤ c.toNat := Nat.not_lt.1 large
    split at h
    next us found =>
      obtain ⟨u, hu, rfl⟩ := List.mem_map.1 h
      exact .inl (capital ((longUpperCases_lead _ (mem_of_lookup found)).2 u hu))
    next =>
      split at h
      next r found =>
        obtain rfl := List.mem_singleton.1 h
        have covers : r.covers c.toNat = true := by simpa using List.find?_some found
        exact .inl (capital ((caseRuns_lead r (List.mem_of_find?_eq_some found)).shifted covers
          beyond))
      next =>
        obtain rfl := List.mem_singleton.1 h
        exact absurd ascii large

/-! ## Words -/

theorem of_mem_capitalize {w : List Char} {d : Char} (h : d ∈ capitalize w)
    (ascii : d.toNat < 128) : d.isUpper = true ∨ d ∈ w := by
  cases w with
  | nil => cases h
  | cons c cs =>
      obtain h | h := List.mem_append.1 h
      · obtain capital | ⟨rfl, -⟩ := of_mem_upperCase h ascii
        · exact .inl capital
        · exact .inr List.mem_cons_self
      · exact .inr (List.mem_cons_of_mem _ h)

theorem bounds_of_isUpper {c : Char} (h : c.isUpper = true) :
    65 ≤ c.val.toNat ∧ c.val.toNat ≤ 90 := by
  obtain ⟨low, high⟩ : 'A'.val ≤ c.val ∧ c.val ≤ 'Z'.val := of_decide_eq_true h
  exact ⟨UInt32.le_iff_toNat_le.1 low, UInt32.le_iff_toNat_le.1 high⟩

theorem isLower_of_isUpper {c : Char} (h : c.isUpper = true) : c.isLower = false := by
  have low : ¬ 'a'.val ≤ c.val := by
    rw [UInt32.le_iff_toNat_le, show 'a'.val.toNat = 97 from rfl]
    have := (bounds_of_isUpper h).2
    omega
  show (decide ('a'.val ≤ c.val) && decide (c.val ≤ 'z'.val)) = false
  rw [decide_eq_false low, Bool.false_and]

theorem isDigit_of_isUpper {c : Char} (h : c.isUpper = true) : c.isDigit = false := by
  obtain ⟨low, -⟩ := bounds_of_isUpper h
  simp only [Char.isDigit, Bool.and_eq_false_iff, decide_eq_false_iff_not, UInt32.le_iff_toNat_le]
  right
  have : '9'.val.toNat = 57 := rfl
  omega

theorem isLower_head_capitalize {w : List Char} {d : Char} (h : (capitalize w).head? = some d)
    (ascii : d.toNat < 128) : d.isLower = false := by
  cases w with
  | nil => cases h
  | cons c cs =>
      rw [capitalize, List.head?_append_of_ne_nil _ (upperCase_ne_nil c)] at h
      obtain capital | ⟨rfl, small⟩ := of_mem_upperCase (List.mem_of_mem_head? h) ascii
      · exact isLower_of_isUpper capital
      · exact small

end Text

namespace Identity

open Text

theorem of_mem_toIdentifier {raw : List Char} {d : Char} (h : d ∈ toIdentifier raw)
    (ascii : d.toNat < 128) : isWordPart d = true := by
  have capital (upper : d.isUpper = true) : isWordPart d = true := by
    have alpha : d.isAlpha = true := by
      show (d.isUpper || d.isLower) = true
      rw [upper, Bool.true_or]
    rw [isWordPart, isAlphanumeric, isAlphabetic_of_isAlpha alpha ascii]
    rfl
  obtain upper | h := of_mem_capitalize h ascii
  · exact capital upper
  have joined := (List.dropWhile_sublist _).subset h
  obtain ⟨w, hw, member⟩ := List.mem_flatten.1 joined
  obtain ⟨piece, hpiece, rfl⟩ := List.mem_map.1 hw
  obtain upper | member := of_mem_capitalize member ascii
  · exact capital upper
  · simpa using Text.of_mem_splitWhere hpiece d member

/-- Nor does a name begin with a small letter or a digit of ASCII. -/
theorem head_toIdentifier {raw : List Char} {d : Char} (h : (toIdentifier raw).head? = some d)
    (ascii : d.toNat < 128) : d.isLower = false ∧ d.isDigit = false := by
  refine ⟨isLower_head_capitalize h ascii, ?_⟩
  unfold toIdentifier at h
  generalize joined : (((splitWhere (fun c => !isWordPart c) raw).map capitalize).flatten) = w at h
  simp only at h
  cases rest : w.dropWhile Char.isDigit with
  | nil =>
      rw [rest] at h
      cases h
  | cons c cs =>
      have noDigit : c.isDigit = false := by
        have := List.head?_dropWhile_not Char.isDigit w
        simpa [rest] using this
      rw [rest, capitalize, List.head?_append_of_ne_nil _ (upperCase_ne_nil c)] at h
      obtain capital | ⟨rfl, -⟩ := of_mem_upperCase (List.mem_of_mem_head? h) ascii
      · exact isDigit_of_isUpper capital
      · exact noDigit

theorem displayName_cases (component root : Path) : displayName component root = .fallback ∨
    ∃ raw, toIdentifier raw ≠ [] ∧
      displayName component root = .derived (String.ofList (toIdentifier raw)) := by
  unfold displayName
  simp only
  split
  next => exact .inl rfl
  next nonempty => exact .inr ⟨_, nonempty, rfl⟩

/-- A name is not empty; it is made of word characters, as far as they are those of ASCII, and does
not begin with a small letter or a digit. -/
theorem displayName_text (component root : Path) :
    (displayName component root).text.toList ≠ [] ∧
      (∀ d ∈ (displayName component root).text.toList, d.toNat < 128 → isWordPart d = true) ∧
      ∀ d, (displayName component root).text.toList.head? = some d → d.toNat < 128 →
        d.isLower = false ∧ d.isDigit = false := by
  obtain whole | ⟨raw, nonempty, whole⟩ := displayName_cases component root
  · rw [whole]
    refine ⟨by decide, by decide, fun d first _ => ?_⟩
    obtain rfl := Option.some.inj first
    decide
  · rw [whole]
    simp only [DisplayName.text, String.toList_ofList]
    exact ⟨nonempty, fun d hd ascii => of_mem_toIdentifier hd ascii,
      fun d first ascii => head_toIdentifier first ascii⟩

end Identity

end PropStories
