/-!
# Blank characters

The characters a form field or a key may be padded with, and the trimming that drops them. Blank
is Unicode's `White_Space` property and nothing else: the zero-width space, the byte order mark
and the information separators are ordinary characters here, the no-break and ideographic spaces
are not.

The one fact: padding with blanks is not seen after trimming (`trimChars_padded`).
-/

namespace RetirementVault.Text

/-- The code points of `White_Space`, as closed ranges in ascending order. -/
def blankRanges : List (Nat × Nat) :=
  [(0x09, 0x0D), (0x20, 0x20), (0x85, 0x85), (0xA0, 0xA0), (0x1680, 0x1680), (0x2000, 0x200A),
    (0x2028, 0x2029), (0x202F, 0x202F), (0x205F, 0x205F), (0x3000, 0x3000)]

/-- Whether a character has the `White_Space` property. -/
def isBlank (c : Char) : Bool :=
  blankRanges.any fun range => decide (range.1 ≤ c.toNat) && decide (c.toNat ≤ range.2)

def dropBlanks (s : List Char) : List Char :=
  s.dropWhile isBlank

/-- A list of characters without the blanks at either end. -/
def trimChars (s : List Char) : List Char :=
  (dropBlanks (dropBlanks s).reverse).reverse

def trim (s : String) : String :=
  String.ofList (trimChars s.toList)

def allBlank (s : String) : Bool :=
  s.toList.all isBlank

/-! ## What trimming leaves -/

theorem dropBlanks_of_all {s : List Char} (h : ∀ c ∈ s, isBlank c = true) (t : List Char) :
    dropBlanks (s ++ t) = dropBlanks t := by
  induction s with
  | nil => rfl
  | cons c r ih =>
    have hc : isBlank c = true := h c (by simp)
    simp only [List.cons_append, dropBlanks, List.dropWhile_cons, hc, if_true]
    exact ih fun d hd => h d (by simp [hd])

theorem dropBlanks_eq_nil {s : List Char} (h : ∀ c ∈ s, isBlank c = true) : dropBlanks s = [] := by
  simpa [dropBlanks] using dropBlanks_of_all h []

/-- Padding with blanks on either side is not seen after trimming. -/
theorem trimChars_padded {l r : List Char} (s : List Char) (hl : ∀ c ∈ l, isBlank c = true)
    (hr : ∀ c ∈ r, isBlank c = true) : trimChars (l ++ s ++ r) = trimChars s := by
  have hr' : ∀ c ∈ r.reverse, isBlank c = true := fun c hc => hr c (List.mem_reverse.1 hc)
  unfold trimChars
  rw [List.append_assoc, dropBlanks_of_all hl]
  by_cases hs : ∀ c ∈ s, isBlank c = true
  · rw [dropBlanks_of_all hs, dropBlanks_eq_nil hr, dropBlanks_eq_nil hs]
  · have h : dropBlanks (s ++ r) = dropBlanks s ++ r := by
      clear hr hr' hl
      induction s with
      | nil => simp at hs
      | cons c t ih =>
        by_cases hc : isBlank c = true
        · have ht : ¬ ∀ d ∈ t, isBlank d = true := fun ht => hs (by simpa [hc] using ht)
          simpa [dropBlanks, List.dropWhile_cons, hc] using ih ht
        · simp [dropBlanks, hc]
    rw [h, List.reverse_append, dropBlanks_of_all hr']

/-- A text whose two ends are not blank is left alone. -/
theorem trimChars_of_ends {s : List Char} (h₁ : ∀ c, s.head? = some c → isBlank c = false)
    (h₂ : ∀ c, s.getLast? = some c → isBlank c = false) : trimChars s = s := by
  have hd : ∀ t : List Char, (∀ c, t.head? = some c → isBlank c = false) → dropBlanks t = t := by
    intro t ht
    cases t with
    | nil => rfl
    | cons c r => simp [dropBlanks, ht c rfl]
  unfold trimChars
  rw [hd s h₁, hd s.reverse (by simpa [List.head?_reverse] using h₂), List.reverse_reverse]

end RetirementVault.Text
