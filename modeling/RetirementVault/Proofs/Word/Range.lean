import RetirementVault.Word

/-!
# When checked arithmetic leaves its range

What checked sums and differences answer, said in unbounded numbers.

A sum of words goes through exactly if all of them together still are a word (`sum_eq`): words only
add, so where a partial sum is too large the whole is as well, and the order of adding does not
matter.

A difference of words read as signed numbers is a different matter, since the readings wrap before
the difference is checked. Where both words are read alike the wraps cancel out and the difference
is the true one. Where one is read as negative and the other is not, the check has it the wrong way
round (`signedDifference_eq`): it stops where the true difference is a signed number, and where it
is none it lets a wrapped one through.
-/

set_option autoImplicit false

namespace RetirementVault.Word

/-! ## Sums -/

/-- What some words add up to, as a number. -/
def total : List UInt64 → Nat
  | [] => 0
  | word :: words => word.toNat + total words

theorem total_perm {words others : List UInt64} (h : words.Perm others) :
    total words = total others := by
  induction h with
  | nil => rfl
  | cons word _ ih => rw [total, total, ih]
  | swap word other words =>
    simp only [total]
    exact Nat.add_left_comm other.toNat word.toNat (total words)
  | trans _ _ ih ih' => exact ih.trans ih'

theorem foldlM_add (start : UInt64) (words : List UInt64) :
    words.foldlM add start
      = if start.toNat + total words < UInt64.size
        then .ok (UInt64.ofNat (start.toNat + total words)) else .error .add := by
  induction words generalizing start with
  | nil =>
    have hstart : start.toNat + total [] = start.toNat := Nat.add_zero _
    rw [hstart, if_pos start.toNat_lt, UInt64.ofNat_toNat]
    rfl
  | cons word words ih =>
    rw [List.foldlM_cons, total, ← Nat.add_assoc]
    by_cases hfits : start.toNat + word.toNat < UInt64.size
    · have hadd : add start word = .ok (start + word) := if_pos hfits
      rw [hadd, ← toNat_add_of_lt hfits]
      exact ih (start + word)
    · have hadd : add start word = .error .add := if_neg hfits
      rw [hadd, if_neg (by omega)]
      rfl

/-- **Words have a sum exactly if all of them together are a word.** -/
theorem sum_eq (words : List UInt64) :
    sum words = if total words < UInt64.size then .ok (UInt64.ofNat (total words))
      else .error .add := by
  have hstart : (0 : UInt64).toNat + total words = total words := Nat.zero_add _
  rw [sum, foldlM_add, hstart]

theorem sum_eq_ok_iff {words : List UInt64} {s : UInt64} :
    sum words = .ok s ↔ s.toNat = total words := by
  rw [sum_eq]
  by_cases hfits : total words < UInt64.size
  · rw [if_pos hfits, Except.ok.injEq, ← UInt64.toNat_inj, UInt64.toNat_ofNat_of_lt' hfits]
    exact eq_comm
  · rw [if_neg hfits]
    exact iff_of_false nofun fun h => hfits (h ▸ s.toNat_lt)

theorem total_lt_of_sum {words : List UInt64} {s : UInt64} (h : sum words = .ok s) :
    total words < UInt64.size :=
  sum_eq_ok_iff.mp h ▸ s.toNat_lt

theorem sum_eq_error_iff {words : List UInt64} {e : Overflow} :
    sum words = .error e ↔ e = .add ∧ UInt64.size ≤ total words := by
  rw [sum_eq]
  by_cases hfits : total words < UInt64.size
  · rw [if_pos hfits]
    exact iff_of_false nofun fun h => Nat.not_lt.mpr h.2 hfits
  · rw [if_neg hfits, Except.error.injEq, and_iff_left (Nat.not_lt.mp hfits)]
    exact eq_comm

theorem sum_perm {words others : List UInt64} (h : words.Perm others) : sum words = sum others := by
  rw [sum_eq, sum_eq, total_perm h]

/-! ## Differences of signed readings -/

/-- The difference of two words, as a number. -/
def difference (a b : UInt64) : Int :=
  (a.toNat : Int) - b.toNat

/-- A number that is off by as many as there are words, and so on the other side of zero. -/
def pastTheEnd (d : Int) : Int :=
  if 0 ≤ d then d - UInt64.size else d + UInt64.size

/-- Two words of which both are read as negative numbers or neither is. -/
def ReadAlike (a b : UInt64) : Prop :=
  2 * a.toNat < UInt64.size ↔ 2 * b.toNat < UInt64.size

instance (a b : UInt64) : Decidable (ReadAlike a b) :=
  inferInstanceAs (Decidable (_ ↔ _))

/-- Words that are read alike are both off or both right, and what they are off by cancels out. -/
theorem readings_of_readAlike {a b : UInt64} (h : ReadAlike a b) :
    signedValue a - signedValue b = difference a b ∧ IsSigned (difference a b) := by
  have ha := a.toNat_lt
  have hb := b.toNat_lt
  unfold ReadAlike at h
  unfold signedValue IsSigned difference
  simp only [UInt64.size] at *
  constructor
  · split <;> split <;> omega
  · omega

/-- Of words that are not read alike one is off, and their readings have a difference in range just
where the words have none. -/
theorem readings_of_not_readAlike {a b : UInt64} (h : ¬ ReadAlike a b) :
    signedValue a - signedValue b = pastTheEnd (difference a b) ∧
      (IsSigned (pastTheEnd (difference a b)) ↔ ¬ IsSigned (difference a b)) := by
  have ha := a.toNat_lt
  have hb := b.toNat_lt
  unfold ReadAlike at h
  unfold signedValue pastTheEnd IsSigned difference
  simp only [UInt64.size] at *
  constructor
  · split <;> split <;> split <;> omega
  · split <;> omega

/-- **What comes of a checked difference of signed readings.** Between words that are not read alike
the check passes the wrong differences, and stops at those that would have been right. -/
theorem signedDifference_eq (a b : UInt64) :
    signedDifference a b =
      if ReadAlike a b then .ok (difference a b)
      else if IsSigned (difference a b) then .error .subtract
      else .ok (pastTheEnd (difference a b)) := by
  unfold signedDifference
  by_cases halike : ReadAlike a b
  · obtain ⟨hreadings, hsigned⟩ := readings_of_readAlike halike
    simp only [hreadings, if_pos halike, if_pos hsigned]
  · obtain ⟨hreadings, hsigned⟩ := readings_of_not_readAlike halike
    simp only [hreadings, if_neg halike, hsigned, ite_not]

/-- A difference does not overflow in adding. -/
theorem signedDifference_eq_error {a b : UInt64} {e : Overflow}
    (h : signedDifference a b = .error e) : e = .subtract := by
  rw [signedDifference_eq] at h
  split at h
  · exact nomatch h
  · split at h
    · exact (Except.error.inj h).symm
    · exact nomatch h

/-- How a number that stands for the difference of two words is related to it. -/
structure StandsFor (d : Int) (a b : UInt64) : Prop where
  /-- It is the difference wherever that is a signed number. -/
  exact_iff : d = difference a b ↔ IsSigned (difference a b)
  /-- And there alone it says which word is the larger one. -/
  sign_iff : (0 ≤ d ↔ b ≤ a) ↔ IsSigned (difference a b)
  /-- Elsewhere it is off by as many as there are words. -/
  off : ¬ IsSigned (difference a b) → d = pastTheEnd (difference a b)

theorem nonneg_difference_iff {a b : UInt64} : 0 ≤ difference a b ↔ b ≤ a := by
  rw [UInt64.le_iff_toNat_le, difference]
  omega

theorem pastTheEnd_difference (a b : UInt64) :
    pastTheEnd (difference a b) ≠ difference a b ∧
      (0 ≤ pastTheEnd (difference a b) ↔ ¬ 0 ≤ difference a b) := by
  have ha := a.toNat_lt
  have hb := b.toNat_lt
  unfold pastTheEnd difference
  simp only [UInt64.size] at *
  constructor
  · split <;> omega
  · split <;> omega

/-- **A difference that passes the check is the true one exactly if that is a signed number.** -/
theorem standsFor_of_signedDifference {a b : UInt64} {d : Int}
    (h : signedDifference a b = .ok d) : StandsFor d a b := by
  rw [signedDifference_eq] at h
  split at h
  · next halike =>
    obtain rfl := Except.ok.inj h
    have hsigned := (readings_of_readAlike halike).2
    exact ⟨iff_of_true rfl hsigned, iff_of_true nonneg_difference_iff hsigned, absurd hsigned⟩
  · split at h
    · exact nomatch h
    · next hout =>
      obtain rfl := Except.ok.inj h
      obtain ⟨hne, hsign⟩ := pastTheEnd_difference a b
      refine ⟨iff_of_false hne hout, iff_of_false ?_ hout, fun _ => rfl⟩
      rw [hsign, nonneg_difference_iff]
      exact not_iff_self

end RetirementVault.Word
