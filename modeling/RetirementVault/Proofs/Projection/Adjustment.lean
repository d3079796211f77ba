import RetirementVault.Projection.Adjustment
import RetirementVault.Proofs.Text.Literal

/-!
# An adjustment that is cleaned

What cleaning leaves of a text is its digits, and a minus in front of them if that is what the text
begins with (`sanitize_eq`). The reader of an adjustment looks for a sign behind the blanks a text
begins with, the cleaning does not. So an adjustment that is typed properly keeps its number when it
is cleaned, with one exception: a minus with blanks in front of it is not the first character. It is
dropped with the blanks, and the number is that of the digits alone
(`adjustments_are_kept_but_for_late_minus`).
-/

set_option autoImplicit false

namespace RetirementVault.Projection

open Text

/-! ## What cleaning leaves -/

/-- The minus of a text that begins with one. -/
def leadingMinus (s : List Char) : List Char :=
  if s.head? = some '-' then ['-'] else []

theorem sanitize_eq (s : List Char) : sanitize s = leadingMinus s ++ s.filter Char.isDigit := by
  cases s with
  | nil => rfl
  | cons c rest =>
    have hdash : '-'.isDigit = false := by decide
    simp only [sanitize, leadingMinus, List.head?_cons, Option.some.injEq, List.filter_cons]
    by_cases hminus : c = '-'
    · simp [hminus, hdash]
    · by_cases hdigit : c.isDigit = true
      · simp [hminus, hdigit]
      · simp [hminus, hdigit]

theorem filter_isDigit_of_blank {s : List Char} (h : ∀ c ∈ s, isBlank c = true) :
    s.filter Char.isDigit = [] := by
  refine List.filter_eq_nil_iff.mpr fun c hc => ?_
  rw [not_isDigit_of_isBlank (h c hc)]
  exact Bool.false_ne_true

/-- Nothing but the digits is left of a literal, wherever it stands. -/
theorem filter_isDigit_of_padded {l : Literal} {text : String} (h : Padded l.text text) :
    text.toList.filter Char.isDigit = l.digits := by
  obtain ⟨left, right, hleft, hright, rfl⟩ := h
  rw [String.toList_append, String.toList_append, List.filter_append, List.filter_append,
    filter_isDigit_of_blank (List.all_eq_true.mp hleft),
    filter_isDigit_of_blank (List.all_eq_true.mp hright), Literal.text, String.toList_ofList,
    Literal.chars, Sign.filter_append l.sign l.isDigit_of_mem, List.nil_append, List.append_nil]

/-- A text that begins with a minus has no blanks in front of it. -/
theorem sign_of_head? {l : Literal} {text : String} (h : Padded l.text text)
    (hminus : text.toList.head? = some '-') : l.sign = .minus := by
  obtain ⟨left, right, hleft, -, rfl⟩ := h
  rw [String.toList_append, String.toList_append, List.append_assoc] at hminus
  cases hchars : left.toList with
  | nil =>
    obtain ⟨d, ds, hd⟩ := List.exists_cons_of_ne_nil l.chars_ne_nil
    rw [hchars, Literal.text, String.toList_ofList, hd] at hminus
    refine l.head?_chars.mp ?_
    rw [hd]
    exact hminus
  | cons c rest =>
    rw [hchars] at hminus
    have hblank := List.all_eq_true.mp hleft c (by simp [hchars])
    rw [Option.some.inj hminus] at hblank
    exact absurd hblank (by decide)

/-! ## What is read -/

/-- The number an adjustment is read as. -/
def adjusted (n : Int) : Int :=
  if Word.IsSigned n then n else 0

theorem parseAdjustment_of_padded {l : Literal} {text : String} (h : Padded l.text text) :
    parseAdjustment text = adjusted l.value := by
  rw [parseAdjustment, readInt64?, readInteger?_trim_iff.mpr ⟨l, h, rfl⟩, adjusted]
  dsimp only
  split <;> rfl

theorem parseAdjustment_text (l : Literal) : parseAdjustment l.text = adjusted l.value :=
  parseAdjustment_of_padded (padded_self l.text)

/-- Cleaning leaves the literal as it is if its minus comes first. -/
theorem sanitize_of_head? {l : Literal} {text : String} (h : Padded l.text text)
    (hminus : text.toList.head? = some '-') :
    String.ofList (sanitize text.toList) = l.text := by
  rw [sanitize_eq, filter_isDigit_of_padded h, leadingMinus, if_pos hminus, Literal.text,
    l.chars_of_minus (sign_of_head? h hminus), List.singleton_append]

/-- Cleaning leaves nothing of a literal but its digits if no minus comes first. -/
theorem sanitize_of_head?_ne {l : Literal} {text : String} (h : Padded l.text text)
    (hminus : text.toList.head? ≠ some '-') :
    String.ofList (sanitize text.toList) = l.unsigned.text := by
  rw [sanitize_eq, filter_isDigit_of_padded h, leadingMinus, if_neg hminus]
  rfl

/-- A number loses its sign in cleaning if a minus does not come first. The least number there is
is lost with it, for the sizes reach one further below zero than above it. -/
theorem parseAdjustment_sanitize {l : Literal} {text : String} (h : Padded l.text text)
    (hvalue : Word.IsSigned l.value) :
    parseAdjustment (String.ofList (sanitize text.toList)) =
      if l.sign = .minus ∧ text.toList.head? ≠ some '-' then
        if l.value = -9223372036854775808 then 0 else -l.value
      else l.value := by
  have hsame : adjusted l.value = l.value := if_pos hvalue
  by_cases hfirst : text.toList.head? = some '-'
  · rw [sanitize_of_head? h hfirst, parseAdjustment_text, hsame,
      if_neg fun hlost => hlost.2 hfirst]
  · rw [sanitize_of_head?_ne h hfirst, parseAdjustment_text, Literal.value_unsigned]
    by_cases hsign : l.sign = .minus
    · have hsize : l.value = -(l.size : Int) := Literal.value_of_minus hsign
      have hsigned : Word.IsSigned l.size ↔ l.value ≠ -9223372036854775808 := by
        unfold Word.IsSigned at hvalue ⊢
        have hwords : UInt64.size = 18446744073709551616 := rfl
        omega
      rw [hsize] at hsigned
      rw [if_pos ⟨hsign, hfirst⟩, adjusted, hsize, Int.neg_neg]
      simp only [hsigned, ne_eq, ite_not]
    · rw [if_neg fun hlost => hsign hlost.1, ← Literal.value_of_ne_minus hsign, hsame]

/-- **A number that is typed properly is the same after cleaning**, unless a minus is in it that
does not come first, with blanks in front of it. -/
theorem adjustments_are_kept_but_for_late_minus (text : String) :
    (∀ n, readInt64? (trim text) = some n ↔
      ∃ l : Literal, Padded l.text text ∧ Word.IsSigned l.value ∧ l.value = n) ∧
    ∀ l : Literal, Padded l.text text → Word.IsSigned l.value →
      parseAdjustment text = l.value ∧
      parseAdjustment (String.ofList (sanitize text.toList)) =
        if l.sign = .minus ∧ text.toList.head? ≠ some '-' then
          if l.value = -9223372036854775808 then 0 else -l.value
        else l.value := by
  refine ⟨fun _ => readInt64?_trim_iff, fun l hpadded hvalue => ⟨?_, ?_⟩⟩
  · exact (parseAdjustment_of_padded hpadded).trans (if_pos hvalue)
  · exact parseAdjustment_sanitize hpadded hvalue

/-- A number that is lost: the least one, with a tabulator in front. -/
theorem adjustments_are_kept_but_for_late_minus_at_the_least :
    let digits : List Char := "9223372036854775808".toList
    let l : Literal := ⟨.minus, digits, by decide, List.all_eq_true.mp (by decide)⟩
    let text : String := "\t-9223372036854775808"
    Padded l.text text ∧ Word.IsSigned l.value ∧
      parseAdjustment text = -9223372036854775808 ∧
      parseAdjustment (String.ofList (sanitize text.toList)) = 0 := by
  intro digits l text
  have hpadded : Padded l.text text := ⟨"\t", "", by decide, by decide, by decide⟩
  have hvalue : l.value = -9223372036854775808 := by decide
  have hsigned : Word.IsSigned l.value := by decide
  obtain ⟨-, hkept⟩ := adjustments_are_kept_but_for_late_minus text
  obtain ⟨hread, hcleaned⟩ := hkept l hpadded hsigned
  have hlost : l.sign = .minus ∧ text.toList.head? ≠ some '-' := by decide
  rw [if_pos hlost, if_pos hvalue] at hcleaned
  exact ⟨hpadded, hsigned, hread.trans hvalue, hcleaned⟩

/-- Cleaning may change a number that is typed properly: five below zero, with a blank in front. -/
theorem sanitize_may_lose_the_sign :
    ¬ ∀ (text : String) (l : Literal), Padded l.text text → Word.IsSigned l.value →
      parseAdjustment (String.ofList (sanitize text.toList)) = l.value := by
  intro hall
  let l : Literal := ⟨.minus, ['5'], by decide, List.all_eq_true.mp (by decide)⟩
  have hpadded : Padded l.text " -5" := ⟨" ", "", by decide, by decide, by decide⟩
  have hcleaned : parseAdjustment (String.ofList (sanitize " -5".toList)) = 5 := by decide
  have hfive := hall " -5" l hpadded (by decide)
  rw [hcleaned] at hfive
  exact absurd hfive (by decide)

end RetirementVault.Projection
