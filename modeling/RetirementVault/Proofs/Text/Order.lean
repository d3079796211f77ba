import RetirementVault.Text.Utf8

/-!
# Texts are ordered by their bytes

Texts are compared by their characters here and by their bytes elsewhere, and UTF-8 is made so that
it comes to the same (`Utf8.encode_le_iff`): a character with more bytes has the larger first one,
and of characters with equally many the bytes are digits of their numbers, the high ones first.

What follows a character does not matter once it differs from the other one, so the whole goes by
the characters from the left (`Utf8.encodeChar_append_lt`).
-/

set_option autoImplicit false

namespace RetirementVault.Text.Utf8

/-- The number of a character is below the end of Unicode. -/
theorem val_lt (c : Char) : c.val.toNat < 0x110000 := by
  have hvalid := c.valid
  simp only [UInt32.isValidChar, Nat.isValidChar] at hvalid
  omega

/-- Numbers that fit into a byte compare like their bytes. -/
theorem ofNat_cons_lt_iff {m n : Nat} (hm : m < 256) (hn : n < 256) {s t : List UInt8} :
    UInt8.ofNat m :: s < UInt8.ofNat n :: t ↔ m < n ∨ m = n ∧ s < t := by
  rw [List.cons_lt_cons_iff, UInt8.lt_iff_toNat_lt, ← UInt8.toNat_inj,
    UInt8.toNat_ofNat_of_lt' hm, UInt8.toNat_ofNat_of_lt' hn]

/-- Numbers compare like their digits to the base 64, the fourth and higher ones taken together. -/
theorem digits_lt_of_lt {m n : Nat} (h : m < n) :
    m / 262144 < n / 262144 ∨ m / 262144 = n / 262144 ∧
      (m / 4096 % 64 < n / 4096 % 64 ∨ m / 4096 % 64 = n / 4096 % 64 ∧
        (m / 64 % 64 < n / 64 % 64 ∨ m / 64 % 64 = n / 64 % 64 ∧ m % 64 < n % 64)) := by
  omega

/-- The smaller character has the smaller bytes, whatever follows them. -/
theorem encodeChar_append_lt {c d : Char} (h : c < d) (s t : List UInt8) :
    String.utf8EncodeChar c ++ s < String.utf8EncodeChar d ++ t := by
  have hlt : c.val.toNat < d.val.toNat := UInt32.lt_iff_toNat_lt.mp h
  have hend : d.val.toNat < 0x110000 := val_lt d
  rw [String.utf8EncodeChar, String.utf8EncodeChar]
  generalize c.val.toNat = m at *
  generalize d.val.toNat = n at *
  have hdigits := digits_lt_of_lt hlt
  -- The first of four bytes has room for three bits, and no character has more.
  have hm : m / 262144 % 8 = m / 262144 := Nat.mod_eq_of_lt (by omega)
  have hn : n / 262144 % 8 = n / 262144 := Nat.mod_eq_of_lt (by omega)
  -- By how many bytes each has: where the numbers differ the first bytes do already.
  repeat' split
  all_goals
    simp (disch := omega) only [List.cons_append, List.nil_append, ofNat_cons_lt_iff, hm, hn]
    omega

theorem encodeChars_lt_of_lt {cs ds : List Char} (h : cs < ds) :
    encodeChars cs < encodeChars ds := by
  induction cs generalizing ds with
  | nil =>
    cases ds with
    | nil => exact absurd h (List.lt_irrefl [])
    | cons d ds =>
      have hpos : 0 < (String.utf8EncodeChar d).length := by
        rw [String.length_utf8EncodeChar]
        exact d.utf8Size_pos
      cases hbytes : String.utf8EncodeChar d with
      | nil => simp [hbytes] at hpos
      | cons b bytes =>
        rw [encodeChars, encodeChars, List.flatMap_cons, hbytes]
        exact List.nil_lt_cons _ _
  | cons c cs ih =>
    cases ds with
    | nil => exact absurd h (List.not_lt_nil _)
    | cons d ds =>
      rw [encodeChars, encodeChars, List.flatMap_cons, List.flatMap_cons]
      rcases List.cons_lt_cons_iff.mp h with hlt | ⟨rfl, hrest⟩
      · exact encodeChar_append_lt hlt _ _
      · exact List.append_left_lt (ih hrest)

/-- **Texts are ordered as their bytes are.** -/
theorem encode_le_iff {s t : String} : encode s ≤ encode t ↔ s ≤ t := by
  constructor
  · intro h
    refine String.not_lt.mp fun hlt => ?_
    exact List.not_lt.mpr h (encodeChars_lt_of_lt (String.lt_iff.mp hlt))
  · intro h
    by_cases heq : s = t
    · exact heq ▸ List.le_refl _
    · have hlt : s < t := String.not_le.mp fun hts => heq (String.le_antisymm h hts)
      exact List.le_of_lt (encodeChars_lt_of_lt (String.lt_iff.mp hlt))

end RetirementVault.Text.Utf8
