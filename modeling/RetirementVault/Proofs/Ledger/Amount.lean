import RetirementVault.Ledger.Basic
import RetirementVault.Proofs.Text.Literal

/-!
# Which texts are amounts

An amount is typed as a literal without a minus, and it has to be a positive number that a word
holds. Every such text is read as its number, however many zeros stand in front, and every other
text is refused for the one reason that it is no amount (`amounts_are_positive_literals`).
-/

set_option autoImplicit false

namespace RetirementVault

open Text

def IsAmount (text : String) (n : Nat) : Prop :=
  ∃ l : Literal, Padded l.text text ∧ l.sign ≠ .minus ∧ l.size = n ∧ 1 ≤ n ∧ n < UInt64.size

theorem isAmount_iff {text : String} {n : Nat} :
    IsAmount text n ↔
      readNatural? (trimChars text.toList) = some n ∧ 1 ≤ n ∧ n < UInt64.size := by
  have htrim : (trim text).toList = trimChars text.toList := String.toList_ofList
  rw [← htrim, readNatural?_trim_iff]
  constructor
  · rintro ⟨l, hpadded, hsign, hsize, hpos, hsmall⟩
    exact ⟨⟨l, hpadded, hsign, hsize⟩, hpos, hsmall⟩
  · rintro ⟨⟨l, hpadded, hsign, hsize⟩, hpos, hsmall⟩
    exact ⟨l, hpadded, hsign, hsize, hpos, hsmall⟩

theorem parseAmount_eq_ok_iff {text : String} {amount : Sats} :
    parseAmount text = .ok amount ↔ IsAmount text amount.toNat := by
  rw [isAmount_iff, parseAmount]
  cases hread : readNatural? (trimChars text.toList) with
  | none => simp
  | some n =>
    rw [Option.some.injEq]
    dsimp only
    split
    · next hword =>
      rw [Except.ok.injEq]
      constructor
      · rintro rfl
        rw [UInt64.toNat_ofNat_of_lt' hword.2]
        exact ⟨rfl, hword⟩
      · rintro ⟨rfl, -⟩
        exact UInt64.ofNat_toNat
    · next hword =>
      constructor
      · intro h
        cases h
      · rintro ⟨rfl, hamount⟩
        exact absurd hamount hword

theorem parseAmount_eq_error {text : String} {why : Refusal} (h : parseAmount text = .error why) :
    why = .invalidAmount := by
  unfold parseAmount at h
  split at h
  · split at h
    · cases h
    · exact (Except.error.inj h).symm
  · exact (Except.error.inj h).symm

/-- **An amount is read from its literals, with blanks around them or not, and from nothing else.**
A text that is no amount is refused as such. In particular what is written for a number of satoshis
reads back as that number. -/
theorem amounts_are_positive_literals (text : String) :
    (∀ amount, parseAmount text = .ok amount ↔ IsAmount text amount.toNat) ∧
    (parseAmount text = .error .invalidAmount ↔ ∀ n, ¬ IsAmount text n) ∧
    ∀ amount : Sats, amount ≠ 0 → Padded (decimal amount.toNat) text →
      parseAmount text = .ok amount := by
  refine ⟨fun _ => parseAmount_eq_ok_iff, ?_, ?_⟩
  · constructor
    · intro h n hn
      have hsmall : n < UInt64.size := (isAmount_iff.mp hn).2.2
      have hword : IsAmount text (UInt64.ofNat n).toNat := by
        rwa [UInt64.toNat_ofNat_of_lt' hsmall]
      rw [parseAmount_eq_ok_iff.mpr hword] at h
      cases h
    · intro h
      cases hparse : parseAmount text with
      | ok amount => exact absurd (parseAmount_eq_ok_iff.mp hparse) (h _)
      | error why => rw [parseAmount_eq_error hparse]
  · intro amount hamount hpadded
    have hpos : 1 ≤ amount.toNat :=
      Nat.one_le_iff_ne_zero.mpr fun hzero => hamount (UInt64.toNat_inj.mp hzero)
    refine parseAmount_eq_ok_iff.mpr ⟨.ofNat amount.toNat, hpadded, ?_, size_ofNat _, hpos, ?_⟩
    · intro hsign
      cases hsign
    · exact amount.toNat_lt

/-- The largest amount there is, between blanks that are not ASCII. -/
theorem amounts_are_positive_literals_at_the_top :
    let amount : Sats := 18446744073709551615
    let text : String := "\u3000 18446744073709551615\u0085"
    amount ≠ 0 ∧ Padded (decimal amount.toNat) text ∧ parseAmount text = .ok amount := by
  intro amount text
  have hamount : amount ≠ 0 := by decide
  have hpadded : Padded (decimal amount.toNat) text :=
    ⟨"\u3000 ", "\u0085", by decide, by decide, by decide⟩
  obtain ⟨-, -, hwritten⟩ := amounts_are_positive_literals text
  exact ⟨hamount, hpadded, hwritten amount hamount hpadded⟩

end RetirementVault
