/-!
# Checked arithmetic on machine words

Amounts are 64-bit words. A sum or difference that leaves its range is an overflow, answered as
such and never wrapped. The one place where a word wraps is its reading as a signed number,
`signedValue`: a word with the top bit set reads as negative.
-/

namespace RetirementVault

/-- Which operation left the range of its words. -/
inductive Overflow where
  | add
  | subtract
  deriving DecidableEq, Repr

def Overflow.message : Overflow → String
  | .add => "attempt to add with overflow"
  | .subtract => "attempt to subtract with overflow"

/-- What comes of one checked operation after another comes of both. -/
theorem bind_eq_ok {ε α β : Type} {x : Except ε α} {f : α → Except ε β} {b : β} :
    x >>= f = .ok b ↔ ∃ a, x = .ok a ∧ f a = .ok b := by
  cases x <;> simp [bind, Except.bind]

/-- What fails in one checked operation after another fails in the first or after it. -/
theorem bind_eq_error {ε α β : Type} {x : Except ε α} {f : α → Except ε β} {e : ε} :
    x >>= f = .error e ↔ x = .error e ∨ ∃ a, x = .ok a ∧ f a = .error e := by
  cases x <;> simp [bind, Except.bind]

namespace Word

def add (a b : UInt64) : Except Overflow UInt64 :=
  if a.toNat + b.toNat < UInt64.size then .ok (a + b) else .error .add

def subtract (a b : UInt64) : Except Overflow UInt64 :=
  if b.toNat ≤ a.toNat then .ok (a - b) else .error .subtract

/-- The sum of some words from the left, if no partial sum leaves the range. -/
def sum (words : List UInt64) : Except Overflow UInt64 :=
  words.foldlM add 0

/-- Whether a number is one that a signed word can hold: the lower half of the words are the
numbers from zero on, the upper half those below zero. -/
def IsSigned (n : Int) : Prop :=
  -UInt64.size ≤ 2 * n ∧ 2 * n < UInt64.size

instance (n : Int) : Decidable (IsSigned n) :=
  inferInstanceAs (Decidable (_ ∧ _))

def signedValue (a : UInt64) : Int :=
  if 2 * a.toNat < UInt64.size then a.toNat else (a.toNat : Int) - UInt64.size

/-- The difference of two words read as signed numbers, if it is a signed 64-bit number. -/
def signedDifference (a b : UInt64) : Except Overflow Int :=
  let d := signedValue a - signedValue b
  if IsSigned d then .ok d else .error .subtract

/-! ## In unbounded numbers -/

theorem toNat_add_of_lt {a b : UInt64} (h : a.toNat + b.toNat < UInt64.size) :
    (a + b).toNat = a.toNat + b.toNat := by
  rw [UInt64.toNat_add]
  exact Nat.mod_eq_of_lt h

/-- A difference is the difference of the numbers, and there is one exactly when it is a number. -/
theorem subtract_of_le {a b : UInt64} (h : b.toNat ≤ a.toNat) :
    subtract a b = .ok (a - b) ∧ (a - b).toNat = a.toNat - b.toNat :=
  ⟨if_pos h, UInt64.toNat_sub_of_le _ _ (UInt64.le_iff_toNat_le.2 h)⟩

end Word
end RetirementVault
