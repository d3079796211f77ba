import RetirementVault.Money
import RetirementVault.Proofs.Text.Grouping

/-!
# Amounts are shown exactly

All amounts of money are laid out alike: a sign, a symbol, the whole part in groups, as many
decimals as the kind of amount has, a unit (`Layout`, `Figure`). A figure reads back as the number
it spells (`readExact?_text`), as neither symbol nor unit has a character that belongs to a number,
and the writers write the figure of a number of least units (`shows_write`). So each kind of amount
is shown in its layout and reads back as the very number that was to be shown; and two numbers that
are shown alike are equal, except where the sign is not shown.
-/

set_option autoImplicit false

namespace RetirementVault.Money

open Text

/-! ## Layouts -/

/-- How amounts of one kind are laid out. -/
structure Layout where
  /-- What stands between the sign and the digits. -/
  symbol : String := ""
  /-- How many decimals there are; without any there is no point either. -/
  places : Nat := 0
  /-- What stands behind the digits. -/
  unit : String := ""
  plain : (symbol.toList ++ unit.toList).all (fun c => !isNumeral c) = true := by decide

/-- An amount as it is laid out. -/
structure Figure (l : Layout) where
  sign : Sign
  whole : Groups
  decimals : List Char
  length_decimals : decimals.length = l.places
  isDigit_of_mem : ∀ c ∈ decimals, c.isDigit = true

namespace Figure

variable {l : Layout}

def fraction (f : Figure l) : List Char :=
  if l.places = 0 then [] else '.' :: f.decimals

def text (f : Figure l) : String :=
  String.ofList (f.sign.chars ++ l.symbol.toList ++ f.whole.chars ++ f.fraction ++ l.unit.toList)

def literal (f : Figure l) : Literal where
  sign := f.sign
  digits := f.whole.digits ++ f.decimals
  digits_ne_nil := List.append_ne_nil_of_left_ne_nil f.whole.digits_ne_nil _
  isDigit_of_mem := List.forall_mem_append.mpr ⟨f.whole.isDigit_of_mem, f.isDigit_of_mem⟩

/-- The number that a figure spells. -/
def value (f : Figure l) : ℚ :=
  (f.literal.value : ℚ) / 10 ^ l.places

end Figure

theorem Layout.filter_eq_nil {l : Layout} {s : List Char}
    (h : s ⊆ l.symbol.toList ++ l.unit.toList) : s.filter isNumeral = [] := by
  refine List.filter_eq_nil_iff.mpr fun c hc => ?_
  have hplain := List.all_eq_true.mp l.plain c (h hc)
  simpa using hplain

/-- What numbers are written with in a figure. -/
theorem Figure.filter_text {l : Layout} (f : Figure l) :
    f.text.toList.filter isNumeral = f.sign.chars ++ f.whole.digits ++ f.fraction := by
  have hsign : f.sign.chars.filter isNumeral = f.sign.chars := by cases f.sign <;> rfl
  have hfraction : f.fraction.filter isNumeral = f.fraction := by
    refine List.filter_eq_self.mpr fun c hc => ?_
    unfold fraction at hc
    split at hc
    · cases hc
    · rcases List.mem_cons.mp hc with rfl | hdigit
      · decide
      · exact isNumeral_of_isDigit (f.isDigit_of_mem c hdigit)
  rw [text, String.toList_ofList, List.filter_append, List.filter_append, List.filter_append,
    List.filter_append, hsign, hfraction, f.whole.filter_chars,
    Layout.filter_eq_nil (List.subset_append_left _ _),
    Layout.filter_eq_nil (List.subset_append_right _ _), List.append_nil, List.append_nil]

/-- **A figure reads back as the number it spells.** -/
theorem Figure.readExact?_text {l : Layout} (f : Figure l) : readExact? f.text = some f.value := by
  have hfront : ∀ c ∈ f.sign.chars ++ f.whole.digits, c ≠ '.' := by
    rintro c hc rfl
    rcases List.mem_append.mp hc with hsign | hdigit
    · cases hs : f.sign <;> simp [hs, Sign.chars] at hsign
    · exact absurd (f.whole.isDigit_of_mem _ hdigit) (by decide)
  have hcut : (f.sign.chars ++ f.whole.digits ++ f.fraction).takeWhile (· ≠ '.')
        = f.sign.chars ++ f.whole.digits ∧
      ((f.sign.chars ++ f.whole.digits ++ f.fraction).dropWhile (· ≠ '.')).tail = f.decimals := by
    rw [List.takeWhile_append_of_pos (by simpa using hfront),
      List.dropWhile_append_of_pos (by simpa using hfront), fraction]
    split
    · next hplaces =>
      have hnone := List.eq_nil_of_length_eq_zero (f.length_decimals.trans hplaces)
      rw [hnone]
      exact ⟨List.append_nil _, rfl⟩
    · exact ⟨List.append_nil _, rfl⟩
  have hread : readInteger? (f.sign.chars ++ f.whole.digits ++ f.decimals)
      = some f.literal.value :=
    readInteger?_eq_some_iff.mpr ⟨f.literal, (List.append_assoc _ _ _).symm, rfl⟩
  rw [readExact?, f.filter_text, hcut.1, hcut.2, hread, f.length_decimals]
  rfl

/-! ## Numbers of least units -/

/-- A number of least units with a sign in front. -/
def signedUnits (sign : Sign) (units : Nat) : Int :=
  if sign = .minus then -(units : Int) else units

/-- A text shows a number in a layout. -/
structure Shows (l : Layout) (sign : Sign) (number : ℚ) (text : String) : Prop where
  laid_out : ∃ f : Figure l, f.sign = sign ∧ f.text = text
  read_back : readExact? text = some number

/-- The point and the decimals of a number of least units. -/
def Layout.decimals (l : Layout) (units : Nat) : String :=
  if l.places = 0 then "" else "." ++ padded l.places (units % 10 ^ l.places)

/-- A number of least units in a layout. -/
def Layout.write (l : Layout) (sign : Sign) (units : Nat) : String :=
  String.ofList sign.chars ++ l.symbol ++ grouped (units / 10 ^ l.places) ++ l.decimals units
    ++ l.unit

/-- The figure of a number of least units. -/
theorem Layout.exists_figure (l : Layout) (sign : Sign) (units : Nat) :
    ∃ f : Figure l, f.sign = sign ∧ f.literal.size = units ∧ f.text = l.write sign units := by
  obtain ⟨whole, hdigits, hgrouped⟩ := exists_groups (units / 10 ^ l.places)
  by_cases hplaces : l.places = 0
  · refine ⟨⟨sign, whole, [], hplaces.symm, by simp⟩, rfl, ?_, ?_⟩
    · show spelled (whole.digits ++ []) = units
      rw [List.append_nil, hdigits, spelled_digits, hplaces, Nat.pow_zero, Nat.div_one]
    · rw [write, ← hgrouped, decimals, if_pos hplaces, Figure.text, Figure.fraction, if_pos hplaces]
      simp [String.ofList_append, String.append_assoc]
  · have hsmall : units % 10 ^ l.places < 10 ^ l.places :=
      Nat.mod_lt _ (Nat.pow_pos (by decide))
    have hlength := length_paddedDigits (Nat.pos_of_ne_zero hplaces) hsmall
    refine ⟨⟨sign, whole, paddedDigits l.places (units % 10 ^ l.places), hlength,
      fun c => isDigit_of_mem_paddedDigits⟩, rfl, ?_, ?_⟩
    · show spelled (whole.digits ++ paddedDigits l.places (units % 10 ^ l.places)) = units
      rw [spelled_append, hlength, hdigits, spelled_digits, spelled_paddedDigits, Nat.mul_comm,
        Nat.div_add_mod]
    · rw [write, ← hgrouped, decimals, if_neg hplaces, Figure.text, Figure.fraction,
        if_neg hplaces, padded]
      simp [String.ofList_append, String.ofList_cons, String.append_assoc]

/-- **What is written shows the number**: so many least units, with the sign that is written. -/
theorem Layout.shows_write (l : Layout) (sign : Sign) (units : Nat) :
    Shows l sign ((signedUnits sign units : ℚ) / 10 ^ l.places) (l.write sign units) := by
  obtain ⟨f, hsign, hsize, htext⟩ := l.exists_figure sign units
  refine ⟨⟨f, hsign, htext⟩, ?_⟩
  have hvalue : f.literal.value = signedUnits sign units := by
    rw [← hsign, ← hsize]
    rfl
  rw [← htext, f.readExact?_text, Figure.value, hvalue]

/-- What is shown is known from its text. -/
theorem Shows.number_eq {l : Layout} {sign sign' : Sign} {number number' : ℚ} {text : String}
    (h : Shows l sign number text) (h' : Shows l sign' number' text) : number = number' :=
  Option.some.inj (h.read_back.symm.trans h'.read_back)

/-! ## The kinds of amounts -/

def plainLayout : Layout := {}

def satsLayout : Layout where
  unit := " sats"

def dollarsLayout : Layout where
  symbol := "$"
  places := 2

def bitcoinLayout : Layout where
  places := 8

/-- The sign in front of a number that always has one, zero excepted. -/
def signOf (n : Int) : Sign :=
  if 0 < n then .plus else if n < 0 then .minus else .none

/-- The sign in front of a number that has one only below zero. -/
def minusOf (n : Int) : Sign :=
  if n < 0 then .minus else .none

theorem signedUnits_natAbs {sign : Sign} {n : Int} (h : sign = .minus ↔ n < 0) :
    signedUnits sign n.natAbs = n := by
  unfold signedUnits
  split
  · next hminus =>
    have hbelow := h.mp hminus
    omega
  · next hsign =>
    have hnot := mt h.mpr hsign
    omega

theorem signOf_eq_minus_iff {n : Int} : signOf n = .minus ↔ n < 0 := by
  unfold signOf
  split
  · next hpos => simp [hpos.le]
  · split
    · next hneg => simp [hneg]
    · next hneg => simp [hneg]

theorem minusOf_eq_minus_iff {n : Int} : minusOf n = .minus ↔ n < 0 := by
  unfold minusOf
  split
  · next hneg => simp [hneg]
  · next hneg => simp [hneg]

theorem write_plain (sign : Sign) (units : Nat) :
    plainLayout.write sign units = String.ofList sign.chars ++ grouped units := by
  simp [Layout.write, Layout.decimals, plainLayout]

theorem shows_magnitude (value : Int) :
    Shows plainLayout .none |(value : ℚ)| (magnitude value) := by
  have hshows := plainLayout.shows_write .none value.natAbs
  have htext : plainLayout.write .none value.natAbs = magnitude value := by
    rw [write_plain]
    exact String.empty_append
  have hnumber : ((signedUnits .none value.natAbs : Int) : ℚ) / 10 ^ plainLayout.places
      = |(value : ℚ)| := by
    simp [signedUnits, plainLayout, Nat.cast_natAbs]
  rwa [htext, hnumber] at hshows

theorem shows_withSign (value : Int) :
    Shows plainLayout (signOf value) (value : ℚ) (withSign value) := by
  have hshows := plainLayout.shows_write (signOf value) value.natAbs
  have htext : plainLayout.write (signOf value) value.natAbs = withSign value := by
    rw [write_plain, withSign, signOf]
    split
    · rfl
    · split
      · rfl
      · next hpos hneg =>
        obtain rfl : value = 0 := by omega
        rfl
  rw [signedUnits_natAbs signOf_eq_minus_iff, htext] at hshows
  simpa [plainLayout] using hshows

theorem shows_satsLabel (value : Sats) :
    Shows satsLayout .none (value.toNat : ℚ) (satsLabel value) := by
  have hshows := satsLayout.shows_write .none value.toNat
  have htext : satsLayout.write .none value.toNat = satsLabel value := by
    simp [Layout.write, Layout.decimals, satsLayout, satsLabel, Sign.chars]
  rw [htext] at hshows
  simpa [signedUnits, satsLayout] using hshows

theorem shows_dollars (cents : Int) :
    Shows dollarsLayout (minusOf cents) (cents / 100) (dollars cents) := by
  have hshows := dollarsLayout.shows_write (minusOf cents) cents.natAbs
  have htext : dollarsLayout.write (minusOf cents) cents.natAbs = dollars cents := by
    have hsign : String.ofList (minusOf cents).chars = if cents < 0 then "-" else "" := by
      unfold minusOf
      split <;> rfl
    rw [Layout.write, hsign]
    simp [Layout.decimals, dollarsLayout, dollars, String.append_assoc]
  rw [signedUnits_natAbs minusOf_eq_minus_iff, htext] at hshows
  have hplaces : (10 : ℚ) ^ dollarsLayout.places = 100 := by norm_num [dollarsLayout]
  rwa [hplaces] at hshows

theorem shows_bitcoin (value : Sats) :
    Shows bitcoinLayout .none (value.toNat / 100000000) (bitcoin value) := by
  have hshows := bitcoinLayout.shows_write .none value.toNat
  have htext : bitcoinLayout.write .none value.toNat = bitcoin value := by
    simp [Layout.write, Layout.decimals, bitcoinLayout, bitcoin, satsPerBitcoin, Sign.chars,
      String.append_assoc]
  have hplaces : (10 : ℚ) ^ bitcoinLayout.places = 100000000 := by norm_num [bitcoinLayout]
  rw [htext, hplaces] at hshows
  simpa [signedUnits] using hshows

/-- **Amounts are shown exactly.** Each kind of amount is in its layout with the sign that is due,
the whole part in groups and all decimals there are, and reads back as the number that was to be
shown. So no two numbers are shown alike, unless by their magnitude. -/
theorem amounts_are_shown_exactly :
    (∀ value : Int, Shows plainLayout .none |(value : ℚ)| (magnitude value)) ∧
    (∀ value : Int, Shows plainLayout (signOf value) value (withSign value)) ∧
    (∀ value : Sats, Shows satsLayout .none value.toNat (satsLabel value)) ∧
    (∀ cents : Int, Shows dollarsLayout (minusOf cents) (cents / 100) (dollars cents)) ∧
    (∀ value : Sats, Shows bitcoinLayout .none (value.toNat / 100000000) (bitcoin value)) ∧
    (∀ v w : Int, withSign v = withSign w ↔ v = w) ∧
    (∀ v w : Sats, satsLabel v = satsLabel w ↔ v = w) ∧
    (∀ v w : Int, dollars v = dollars w ↔ v = w) ∧
    (∀ v w : Sats, bitcoin v = bitcoin w ↔ v = w) := by
  refine ⟨shows_magnitude, shows_withSign, shows_satsLabel, shows_dollars, shows_bitcoin,
    fun v w => ⟨fun h => ?_, congrArg _⟩, fun v w => ⟨fun h => ?_, congrArg _⟩,
    fun v w => ⟨fun h => ?_, congrArg _⟩, fun v w => ⟨fun h => ?_, congrArg _⟩⟩
  · have hsame := (shows_withSign v).number_eq (h ▸ shows_withSign w)
    exact_mod_cast hsame
  · have hsame := (shows_satsLabel v).number_eq (h ▸ shows_satsLabel w)
    exact UInt64.toNat_inj.mp (by exact_mod_cast hsame)
  · have hsame := (shows_dollars v).number_eq (h ▸ shows_dollars w)
    rw [div_left_inj' (by norm_num)] at hsame
    exact_mod_cast hsame
  · have hsame := (shows_bitcoin v).number_eq (h ▸ shows_bitcoin w)
    rw [div_left_inj' (by norm_num)] at hsame
    exact UInt64.toNat_inj.mp (by exact_mod_cast hsame)

end RetirementVault.Money
