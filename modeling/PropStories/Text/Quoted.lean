import PropStories.Text.Letter

/-!
# Quoted text and keys

Between single quotes, a backslash and a quote get a backslash in front, a line feed is written as
an escape, and a carriage return is left out. Main statements: doing this for one character after
the other is the same as doing it in one pass, and reading what was written gives the text without
its carriage returns.
-/

namespace PropStories.Text.Quoted

def replaceEach (c : Char) (new cs : List Char) : List Char :=
  cs.flatMap fun d => if d = c then new else [d]

/-- The text as it stands between single quotes. Backslashes come first, since the other escapes
bring new ones. -/
def escape (cs : List Char) : List Char :=
  replaceEach '\r' [] (replaceEach '\n' ['\\', 'n']
    (replaceEach '\x27' ['\\', '\x27'] (replaceEach '\\' ['\\', '\\'] cs)))

/-- The same in one pass. -/
def encode : List Char → List Char
  | [] => []
  | c :: cs =>
      if c = '\\' then '\\' :: '\\' :: encode cs
      else if c = '\x27' then '\\' :: '\x27' :: encode cs
      else if c = '\n' then '\\' :: 'n' :: encode cs
      else if c = '\r' then encode cs
      else c :: encode cs

theorem escape_cons (c : Char) (cs : List Char) : escape (c :: cs) = escape [c] ++ escape cs := by
  have split (d : Char) (new : List Char) (a b : List Char) :
      replaceEach d new (a ++ b) = replaceEach d new a ++ replaceEach d new b :=
    List.flatMap_append
  rw [← List.singleton_append, escape, split, split, split, split, escape, escape]

theorem escape_eq_encode (cs : List Char) : escape cs = encode cs := by
  induction cs with
  | nil => rfl
  | cons c cs ih =>
      rw [escape_cons, ih, encode]
      split
      next h => subst h; rfl
      next backslash =>
        split
        next h => subst h; rfl
        next quote =>
          split
          next h => subst h; rfl
          next feed =>
            split
            next h => subst h; rfl
            next carriage => simp [escape, replaceEach, backslash, quote, feed, carriage]

/-- The text that a literal's inside stands for; a lone quote, a line end or an unknown escape
makes it no literal. -/
def decode : List Char → Option (List Char)
  | [] => some []
  | '\\' :: c :: cs =>
      if c = '\\' ∨ c = '\x27' then (decode cs).map (c :: ·)
      else if c = 'n' then (decode cs).map ('\n' :: ·)
      else none
  | c :: cs =>
      if c = '\\' ∨ c = '\x27' ∨ c = '\n' ∨ c = '\r' then none else (decode cs).map (c :: ·)

theorem decode_cons_of_plain {c : Char} {cs : List Char}
    (h : c ≠ '\\' ∧ c ≠ '\x27' ∧ c ≠ '\n' ∧ c ≠ '\r') :
    decode (c :: cs) = (decode cs).map (c :: ·) := by
  obtain ⟨h₁, h₂, h₃, h₄⟩ := h
  rw [decode.eq_3 c cs (by simp_all)]
  simp_all

theorem decode_encode (cs : List Char) : decode (encode cs) = some (cs.filter (· ≠ '\r')) := by
  induction cs with
  | nil => rfl
  | cons c cs ih =>
      unfold encode
      split
      · rename_i h
        subst h
        simp [decode, ih]
      · split
        · rename_i h
          subst h
          simp [decode, ih]
        · split
          · rename_i h
            subst h
            simp [decode, ih]
          · split
            · rename_i h
              subst h
              simp [ih]
            · rename_i h₁ h₂ h₃ h₄
              rw [decode_cons_of_plain ⟨h₁, h₂, h₃, h₄⟩, ih]
              simp [h₄]

def quote (s : String) : String := "'" ++ String.ofList (escape s.toList) ++ "'"

theorem quote_eq (s : String) : quote s = "'" ++ String.ofList (encode s.toList) ++ "'" := by
  rw [quote, escape_eq_encode]

end PropStories.Text.Quoted

namespace PropStories.Text

/-! ## Keys of an object -/

def isIdentifierStart (c : Char) : Bool := isAlphabetic c || c == '_' || c == '$'

def isIdentifierPart (c : Char) : Bool := isAlphanumeric c || c == '_' || c == '$'

def isIdentifier (s : String) : Bool :=
  match s.toList with
  | [] => false
  | c :: cs => isIdentifierStart c && cs.all isIdentifierPart

theorem isIdentifierPart_of_start {c : Char} (h : isIdentifierStart c = true) :
    isIdentifierPart c = true := by
  simp only [isIdentifierStart, isIdentifierPart, isAlphanumeric, Bool.or_eq_true] at h ⊢
  exact h.imp_left fun h => h.imp_left .inl

theorem isIdentifierPart_of_mem {s : String} (h : isIdentifier s = true) {c : Char}
    (hc : c ∈ s.toList) : isIdentifierPart c = true := by
  unfold isIdentifier at h
  split at h
  next => cases h
  next d ds text =>
    rw [Bool.and_eq_true] at h
    rw [text] at hc
    obtain rfl | hc := List.mem_cons.1 hc
    · exact isIdentifierPart_of_start h.1
    · exact List.all_eq_true.1 h.2 c hc

def objectKey (name : String) : String :=
  if isIdentifier name then name else Quoted.quote name

end PropStories.Text
