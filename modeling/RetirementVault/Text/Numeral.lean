import RetirementVault.Power
import RetirementVault.Word

/-!
# Decimal numerals

Whole numbers as text: their digits, their digits grouped in threes, their digits padded to a
fixed width, and the reader of an integer literal. Only the ten ASCII digits count as digits, on
the way in and on the way out.

The reader takes one optional sign and at least one digit and nothing else, so it does no
trimming of its own; what a field allows around the number is the field's business.
-/

namespace RetirementVault.Text

/-- The decimal digits of a number, without leading zeros. -/
def digits (n : Nat) : List Char :=
  Nat.toDigits 10 n

def decimal (n : Nat) : String :=
  String.ofList (digits n)

/-- Digits with a comma before every third one, counted from the end. -/
def groupThrees : List Char → List Char
  | [] => []
  | d :: ds =>
    if ds ≠ [] ∧ ds.length % 3 = 0 then d :: ',' :: groupThrees ds else d :: groupThrees ds

/-- A number with its digits grouped in threes, `1,234,567`. -/
def grouped (n : Nat) : String :=
  String.ofList (groupThrees (digits n))

/-- The digits of a number, filled up with zeros in front to a given width. -/
def paddedDigits (width n : Nat) : List Char :=
  List.replicate (width - (digits n).length) '0' ++ digits n

def padded (width n : Nat) : String :=
  String.ofList (paddedDigits width n)

/-- Reads a non-empty run of digits, leading zeros included. -/
def readDigits? (s : List Char) : Option Nat :=
  if s ≠ [] ∧ s.all Char.isDigit then some (Nat.ofDigitChars 10 s 0) else none

/-- Reads a literal of a whole number with at most one plus in front. -/
def readNatural? : List Char → Option Nat
  | '+' :: s => readDigits? s
  | s => readDigits? s

/-- Reads a literal of an integer with at most one sign in front. -/
def readInteger? : List Char → Option Int
  | '-' :: s => (readDigits? s).map fun n => -(n : Int)
  | s => (readNatural? s).map Int.ofNat

def readUInt64? (s : String) : Option UInt64 :=
  match readNatural? s.toList with
  | some n => if n < UInt64.size then some (UInt64.ofNat n) else none
  | none => none

def readInt64? (s : String) : Option Int :=
  match readInteger? s.toList with
  | some n => if Word.IsSigned n then some n else none
  | none => none

/-! ## Reading back -/

theorem digits_ne_nil (n : Nat) : digits n ≠ [] :=
  Nat.toDigits_ne_nil

theorem isDigit_of_mem_digits {n : Nat} {c : Char} (h : c ∈ digits n) : c.isDigit = true :=
  Nat.isDigit_of_mem_toDigits (by decide) (by decide) h

theorem readDigits?_digits (n : Nat) : readDigits? (digits n) = some n := by
  have h : (digits n).all Char.isDigit = true :=
    List.all_eq_true.2 fun _ hc => isDigit_of_mem_digits hc
  rw [readDigits?, if_pos ⟨digits_ne_nil n, h⟩]
  exact congrArg some Nat.ofDigitChars_ten_toDigits

theorem digits_inj {m n : Nat} : digits m = digits n ↔ m = n :=
  ⟨fun h => by simpa [readDigits?_digits] using congrArg readDigits? h, fun h => h ▸ rfl⟩

/-- No number but zero is written with a zero in front. -/
theorem digits_of_head_zero (n : Nat) : (digits n).head? = some '0' → digits n = ['0'] := by
  induction n using Nat.strongRecOn with
  | ind n ih =>
    intro h
    unfold digits at h ⊢
    by_cases hn : n < 10
    · rw [Nat.toDigits_of_lt_base hn] at h ⊢
      simpa using h
    · have hsplit := Nat.toDigits_of_base_le (b := 10) (n := n) (by decide) (by omega)
      have hfront : (Nat.toDigits 10 (n / 10)).head? = some '0' := by
        rw [hsplit] at h
        cases hd : Nat.toDigits 10 (n / 10) with
        | nil => exact absurd hd Nat.toDigits_ne_nil
        | cons d ds => simpa [hd] using h
      -- The front part spells a number that is not zero, which the induction hypothesis refutes.
      have hzero : digits (n / 10) = digits 0 := ih (n / 10) (by omega) hfront
      have hdiv : n / 10 = 0 := digits_inj.mp hzero
      omega

end RetirementVault.Text
