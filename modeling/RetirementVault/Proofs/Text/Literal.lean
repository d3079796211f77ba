import RetirementVault.Proofs.Text.Spelling
import RetirementVault.Text.Numeral

/-!
# Literals of whole numbers

How a whole number may be typed: at most one sign and then digits, at least one and any number of
leading zeros (`Literal`), with blanks around it or not. The readers take these texts and no others
(`readNatural?_trim_iff`, `readInteger?_trim_iff`), and the number they give is the one that the
digits spell, each by its place (`spelled`).

That trimming leaves a literal as it is needs no more than that none of its characters is blank.
The other way round every text is what its trimming leaves, padded (`padded_trim`).
-/

set_option autoImplicit false

namespace RetirementVault.Text

/-- The number that digits spell: each one counts ten times what the one behind it does. -/
def spelled : List Char → Nat
  | [] => 0
  | d :: ds => (d.toNat - '0'.toNat) * 10 ^ ds.length + spelled ds

/-- What may stand in front of the digits. -/
inductive Sign where
  | none
  | plus
  | minus
  deriving DecidableEq

/-- A sign as it is typed. -/
def Sign.chars : Sign → List Char
  | .none => []
  | .plus => ['+']
  | .minus => ['-']

/-- Digits behind a sign begin with a minus only if that is the sign. -/
theorem Sign.head?_append {sign : Sign} {ds : List Char} (h : ∀ c ∈ ds, c.isDigit = true) :
    (sign.chars ++ ds).head? = some '-' ↔ sign = .minus := by
  cases sign with
  | none =>
    refine iff_of_false (fun hminus => ?_) (by decide)
    exact absurd (h '-' (List.mem_of_head? hminus)) (by decide)
  | plus => exact iff_of_false (by simp [chars]) (by decide)
  | minus => exact iff_of_true rfl rfl

/-- No sign is a digit. -/
theorem Sign.filter_append {ds : List Char} (sign : Sign) (h : ∀ c ∈ ds, c.isDigit = true) :
    (sign.chars ++ ds).filter Char.isDigit = ds := by
  have hsign : sign.chars.filter Char.isDigit = [] := by cases sign <;> rfl
  rw [List.filter_append, hsign, List.nil_append]
  exact List.filter_eq_self.mpr h

/-- A whole number as it is typed. -/
structure Literal where
  sign : Sign
  digits : List Char
  digits_ne_nil : digits ≠ []
  isDigit_of_mem : ∀ c ∈ digits, c.isDigit = true

namespace Literal

def chars (l : Literal) : List Char :=
  l.sign.chars ++ l.digits

def text (l : Literal) : String :=
  String.ofList l.chars

/-- The number without its sign. -/
def size (l : Literal) : Nat :=
  spelled l.digits

def value (l : Literal) : Int :=
  if l.sign = .minus then -(l.size : Int) else l.size

theorem chars_ne_nil (l : Literal) : l.chars ≠ [] :=
  List.append_ne_nil_of_right_ne_nil _ l.digits_ne_nil

theorem value_of_minus {l : Literal} (h : l.sign = .minus) : l.value = -(l.size : Int) :=
  if_pos h

theorem value_of_ne_minus {l : Literal} (h : l.sign ≠ .minus) : l.value = l.size :=
  if_neg h

theorem chars_of_minus (l : Literal) (h : l.sign = .minus) : l.chars = '-' :: l.digits := by
  rw [chars, h]
  rfl

/-- A literal begins with a minus only if that is its sign. -/
theorem head?_chars (l : Literal) : l.chars.head? = some '-' ↔ l.sign = .minus :=
  Sign.head?_append l.isDigit_of_mem

/-- The digits of a literal alone. -/
def unsigned (l : Literal) : Literal :=
  { l with sign := .none }

theorem value_unsigned (l : Literal) : l.unsigned.value = l.size :=
  rfl

/-- A number as it is written. -/
def ofNat (n : Nat) : Literal where
  sign := .none
  digits := Text.digits n
  digits_ne_nil := Text.digits_ne_nil n
  isDigit_of_mem _ := isDigit_of_mem_digits

end Literal

/-! ## Digits -/

/-- Reading digit by digit from the left gives what they spell. -/
theorem ofDigitChars_eq (ds : List Char) (n : Nat) :
    Nat.ofDigitChars 10 ds n = n * 10 ^ ds.length + spelled ds := by
  induction ds generalizing n with
  | nil => simp [spelled]
  | cons d ds ih =>
    rw [Nat.ofDigitChars_cons, ih, spelled, List.length_cons, Nat.pow_succ, Nat.add_mul,
      Nat.mul_comm 10 n, Nat.mul_assoc, Nat.mul_comm 10, Nat.add_assoc]

theorem readDigits?_eq_some_iff {s : List Char} {n : Nat} :
    readDigits? s = some n ↔ s ≠ [] ∧ (∀ c ∈ s, c.isDigit = true) ∧ spelled s = n := by
  unfold readDigits?
  rw [ofDigitChars_eq, Nat.zero_mul, Nat.zero_add, Option.ite_none_right_eq_some, List.all_eq_true,
    Option.some.injEq, and_assoc]

theorem size_ofNat (n : Nat) : (Literal.ofNat n).size = n :=
  (readDigits?_eq_some_iff.mp (readDigits?_digits n)).2.2

theorem not_isDigit_of_isBlank {c : Char} (h : isBlank c = true) : c.isDigit = false := by
  refine Bool.eq_false_iff.mpr fun hdigit => ?_
  obtain ⟨hzero, hnine⟩ := Bool.and_eq_true_iff.mp hdigit
  have hlow : 48 ≤ c.toNat := UInt32.le_iff_toNat_le.mp (of_decide_eq_true hzero)
  have hhigh : c.toNat ≤ 57 := UInt32.le_iff_toNat_le.mp (of_decide_eq_true hnine)
  simp only [isBlank, blankRanges, List.any_cons, List.any_nil, Bool.or_eq_true, Bool.and_eq_true,
    decide_eq_true_iff, Bool.false_eq_true, or_false] at h
  omega

theorem Literal.not_isBlank_of_mem (l : Literal) {c : Char} (h : c ∈ l.chars) :
    isBlank c = false := by
  rcases List.mem_append.mp h with hsign | hdigit
  · cases hl : l.sign with
    | none => simp [hl, Sign.chars] at hsign
    | plus | minus =>
      rw [hl] at hsign
      obtain rfl := List.mem_singleton.mp hsign
      decide
  · refine Bool.eq_false_iff.mpr fun hblank => ?_
    have hnot := not_isDigit_of_isBlank hblank
    rw [l.isDigit_of_mem c hdigit] at hnot
    exact Bool.noConfusion hnot

/-! ## Readers -/

/-- Before digits no sign is found. -/
theorem readNatural?_of_isDigit {s : List Char} (h : ∀ c ∈ s, c.isDigit = true) :
    readNatural? s = readDigits? s := by
  unfold readNatural?
  split
  · exact absurd (h '+' (by simp)) (by decide)
  · rfl

theorem readNatural?_eq_some_iff {s : List Char} {n : Nat} :
    readNatural? s = some n ↔
      ∃ l : Literal, l.chars = s ∧ l.sign ≠ .minus ∧ l.size = n := by
  constructor
  · intro h
    unfold readNatural? at h
    split at h
    · next t =>
      obtain ⟨hne, hdigits, hspelled⟩ := readDigits?_eq_some_iff.mp h
      exact ⟨⟨.plus, t, hne, hdigits⟩, rfl, by simp, hspelled⟩
    · obtain ⟨hne, hdigits, hspelled⟩ := readDigits?_eq_some_iff.mp h
      exact ⟨⟨.none, s, hne, hdigits⟩, rfl, by simp, hspelled⟩
  · rintro ⟨⟨sign, ds, hne, hdigits⟩, rfl, hsign, rfl⟩
    have hread : readDigits? ds = some (spelled ds) :=
      readDigits?_eq_some_iff.mpr ⟨hne, hdigits, rfl⟩
    cases sign with
    | none => exact (readNatural?_of_isDigit hdigits).trans hread
    | plus => exact hread
    | minus => exact absurd rfl hsign

theorem readInteger?_minus (t : List Char) :
    readInteger? ('-' :: t) = Option.map (fun n : Nat => -(n : Int)) (readDigits? t) := by
  show Option.map (fun n : Int => -n) _ = _
  cases readDigits? t <;> rfl

theorem readInteger?_of_ne_minus {s : List Char} (h : s.head? ≠ some '-') :
    readInteger? s = Option.map Int.ofNat (readNatural? s) := by
  unfold readInteger?
  split
  · exact absurd rfl h
  · rfl

theorem readInteger?_eq_some_iff {s : List Char} {n : Int} :
    readInteger? s = some n ↔ ∃ l : Literal, l.chars = s ∧ l.value = n := by
  constructor
  · intro h
    by_cases hminus : s.head? = some '-'
    · obtain ⟨t, rfl⟩ := List.head?_eq_some_iff.mp hminus
      rw [readInteger?_minus] at h
      obtain ⟨size, hsize, rfl⟩ := Option.map_eq_some_iff.mp h
      obtain ⟨hne, hdigits, rfl⟩ := readDigits?_eq_some_iff.mp hsize
      exact ⟨⟨.minus, t, hne, hdigits⟩, rfl, rfl⟩
    · rw [readInteger?_of_ne_minus hminus] at h
      obtain ⟨size, hsize, rfl⟩ := Option.map_eq_some_iff.mp h
      obtain ⟨l, hchars, hsign, rfl⟩ := readNatural?_eq_some_iff.mp hsize
      exact ⟨l, hchars, Literal.value_of_ne_minus hsign⟩
  · rintro ⟨l, rfl, rfl⟩
    by_cases hsign : l.sign = .minus
    · have hread : readDigits? l.digits = some l.size :=
        readDigits?_eq_some_iff.mpr ⟨l.digits_ne_nil, l.isDigit_of_mem, rfl⟩
      rw [l.chars_of_minus hsign, readInteger?_minus, hread, Literal.value_of_minus hsign]
      rfl
    · have hread : readNatural? l.chars = some l.size :=
        readNatural?_eq_some_iff.mpr ⟨l, rfl, hsign, rfl⟩
      rw [readInteger?_of_ne_minus (mt l.head?_chars.mp hsign), hread,
        Literal.value_of_ne_minus hsign]
      rfl

/-! ## Blanks around a literal -/

theorem exists_eq_trimChars (s : List Char) :
    ∃ left right, (∀ c ∈ left, isBlank c = true) ∧ (∀ c ∈ right, isBlank c = true) ∧
      s = left ++ trimChars s ++ right := by
  have hcut : ∀ t : List Char, t = t.takeWhile isBlank ++ dropBlanks t :=
    fun t => List.takeWhile_append_dropWhile.symm
  have hblank : ∀ t : List Char, ∀ c ∈ t.takeWhile isBlank, isBlank c = true := by
    intro t c hc
    exact List.all_eq_true.mp List.all_takeWhile c hc
  refine ⟨s.takeWhile isBlank, ((dropBlanks s).reverse.takeWhile isBlank).reverse, hblank s, ?_, ?_⟩
  · intro c hc
    exact hblank _ c (List.mem_reverse.mp hc)
  · -- What is left in front is turned round, cut again, and turned back.
    have hback := congrArg List.reverse (hcut (dropBlanks s).reverse)
    rw [List.reverse_reverse, List.reverse_append] at hback
    rw [trimChars, List.append_assoc, ← hback, ← hcut]

/-- Every text is what its trimming leaves, padded. -/
theorem padded_trim (text : String) : Padded (trim text) text := by
  obtain ⟨left, right, hleft, hright, htext⟩ := exists_eq_trimChars text.toList
  refine ⟨String.ofList left, String.ofList right, ?_, ?_, ?_⟩
  · rw [allBlank, String.toList_ofList]
    exact List.all_eq_true.mpr hleft
  · rw [allBlank, String.toList_ofList]
    exact List.all_eq_true.mpr hright
  · refine String.toList_inj.mp ?_
    rw [String.toList_append, String.toList_append, trim, String.toList_ofList,
      String.toList_ofList, String.toList_ofList]
    exact htext

theorem padded_self (text : String) : Padded text text :=
  ⟨"", "", rfl, rfl, by rw [String.empty_append, String.append_empty]⟩

theorem trim_of_padded_literal {l : Literal} {text : String} (h : Padded l.text text) :
    trim text = l.text := by
  refine trim_of_padded h fun c hc => l.not_isBlank_of_mem ?_
  rwa [Literal.text, String.toList_ofList] at hc

/-- A text is a literal with blanks around it exactly if its trimming leaves the literal. -/
theorem padded_literal_iff {l : Literal} {text : String} :
    Padded l.text text ↔ l.chars = (trim text).toList := by
  constructor
  · intro h
    rw [trim_of_padded_literal h, Literal.text, String.toList_ofList]
  · intro h
    have htext : l.text = trim text := by rw [Literal.text, h, String.ofList_toList]
    rw [htext]
    exact padded_trim text

/-- **A natural number is read from its literals without a minus, and from nothing else.** -/
theorem readNatural?_trim_iff {text : String} {n : Nat} :
    readNatural? (trim text).toList = some n ↔
      ∃ l : Literal, Padded l.text text ∧ l.sign ≠ .minus ∧ l.size = n := by
  simp only [readNatural?_eq_some_iff, padded_literal_iff]

/-- **An integer is read from its literals, and from nothing else.** -/
theorem readInteger?_trim_iff {text : String} {n : Int} :
    readInteger? (trim text).toList = some n ↔
      ∃ l : Literal, Padded l.text text ∧ l.value = n := by
  simp only [readInteger?_eq_some_iff, padded_literal_iff]

/-- A signed word is read from the literals of a number that it holds. -/
theorem readInt64?_trim_iff {text : String} {n : Int} :
    readInt64? (trim text) = some n ↔
      ∃ l : Literal, Padded l.text text ∧ Word.IsSigned l.value ∧ l.value = n := by
  unfold readInt64?
  constructor
  · intro h
    split at h
    · next m hread =>
      obtain ⟨l, hpadded, rfl⟩ := readInteger?_trim_iff.mp hread
      obtain ⟨hsigned, hvalue⟩ := Option.ite_none_right_eq_some.mp h
      exact ⟨l, hpadded, hsigned, Option.some.inj hvalue⟩
    · cases h
  · rintro ⟨l, hpadded, hsigned, rfl⟩
    rw [readInteger?_trim_iff.mpr ⟨l, hpadded, rfl⟩]
    exact if_pos hsigned

end RetirementVault.Text
