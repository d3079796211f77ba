import Mathlib.Algebra.Order.Field.Rat
import Mathlib.Tactic.FieldSimp
import Mathlib.Tactic.NormNum
import RetirementVault.Proofs.Text.Literal

/-!
# Grouped digits and the numbers they show

Digits that have been grouped are a first group of one to three digits and groups of exactly three
behind it, a comma before each of those (`Groups`). Which digits stand first in their group depends
on how many digits follow, so the grouping is shown from the back: a group of three that is complete
gets its comma when one more digit is put in front (`exists_groups`).

Reading goes the other way and knows nothing of groups. It drops every character that no number is
written with, commas and units alike, and takes what is left as an exact decimal (`readExact?`).
-/

set_option autoImplicit false

namespace RetirementVault.Text

/-! ## Groups -/

/-- A whole number with its digits in groups. -/
structure Groups where
  first : List Char
  others : List (List Char)
  first_ne_nil : first ≠ []
  length_first_le : first.length ≤ 3
  length_of_mem : ∀ g ∈ others, g.length = 3
  isDigit_of_mem : ∀ c ∈ first ++ others.flatten, c.isDigit = true
  /-- A zero in front stands alone. -/
  zero_alone : first.head? = some '0' → first = ['0'] ∧ others = []

namespace Groups

def digits (g : Groups) : List Char :=
  g.first ++ g.others.flatten

def chars (g : Groups) : List Char :=
  g.first ++ g.others.flatMap (',' :: ·)

theorem digits_ne_nil (g : Groups) : g.digits ≠ [] :=
  List.append_ne_nil_of_left_ne_nil g.first_ne_nil _

end Groups

/-- Digits fall into groups of three with the rest in front. -/
theorem groupThrees_eq {ds : List Char} (h : ds ≠ []) :
    ∃ (first : List Char) (others : List (List Char)), first ≠ [] ∧ first.length ≤ 3 ∧
      (∀ g ∈ others, g.length = 3) ∧ first ++ others.flatten = ds ∧
        groupThrees ds = first ++ others.flatMap (',' :: ·) := by
  induction ds with
  | nil => exact absurd rfl h
  | cons d ds ih =>
    rcases eq_or_ne ds [] with rfl | hds
    · exact ⟨[d], [], by simp, by simp, by simp, rfl, rfl⟩
    obtain ⟨first, others, hfirst, hthree, hothers, hdigits, hgroups⟩ := ih hds
    -- The groups behind the first one do not count for what is left over of three.
    have hlength : ds.length = first.length + 3 * others.length := by
      rw [← hdigits, List.length_append, List.length_flatten,
        List.map_congr_left (g := fun _ => 3) hothers]
      simp [Nat.mul_comm]
    have hpos := List.length_pos_iff.mpr hfirst
    by_cases hcomplete : ds.length % 3 = 0
    · have hfull : first.length = 3 := by omega
      refine ⟨[d], first :: others, by simp, by simp, ?_, ?_, ?_⟩
      · exact List.forall_mem_cons.mpr ⟨hfull, hothers⟩
      · rw [List.flatten_cons, hdigits, List.singleton_append]
      · rw [groupThrees, if_pos ⟨hds, hcomplete⟩, hgroups]
        rfl
    · refine ⟨d :: first, others, by simp, ?_, hothers, ?_, ?_⟩
      · rw [List.length_cons]
        omega
      · rw [List.cons_append, hdigits]
      · rw [groupThrees, if_neg fun hboth => hcomplete hboth.2, hgroups, List.cons_append]

/-- **A number that is grouped is shown in groups**, and their digits are its digits. -/
theorem exists_groups (n : Nat) :
    ∃ g : Groups, g.digits = digits n ∧ String.ofList g.chars = grouped n := by
  obtain ⟨first, others, hfirst, hthree, hothers, hdigits, hgroups⟩ :=
    groupThrees_eq (digits_ne_nil n)
  refine ⟨⟨first, others, hfirst, hthree, hothers, ?_, ?_⟩, hdigits, ?_⟩
  · rw [hdigits]
    exact fun c => isDigit_of_mem_digits
  · intro hzero
    have hhead : (digits n).head? = some '0' := by
      rw [← hdigits, List.head?_append_of_ne_nil _ hfirst]
      exact hzero
    have halone := (digits_of_head_zero n hhead).symm.trans hdigits.symm
    obtain ⟨d, rest, rfl⟩ := List.exists_cons_of_ne_nil hfirst
    obtain ⟨rfl, hrest⟩ := List.cons.inj halone
    obtain ⟨rfl, hnone⟩ := List.append_eq_nil_iff.mp hrest.symm
    refine ⟨rfl, List.eq_nil_iff_forall_not_mem.mpr fun g hg => ?_⟩
    have hempty := List.flatten_eq_nil_iff.mp hnone g hg
    exact absurd (hothers g hg) (by simp [hempty])
  · exact congrArg String.ofList hgroups.symm

/-! ## What digits spell together -/

theorem spelled_append (front back : List Char) :
    spelled (front ++ back) = spelled front * 10 ^ back.length + spelled back := by
  induction front with
  | nil => simp [spelled]
  | cons d front ih =>
    rw [List.cons_append, spelled, spelled, ih, List.length_append, Nat.pow_add, Nat.add_mul,
      Nat.mul_assoc, Nat.add_assoc]

theorem spelled_digits (n : Nat) : spelled (digits n) = n :=
  size_ofNat n

/-- Zeros in front count for nothing. -/
theorem spelled_paddedDigits (width n : Nat) : spelled (paddedDigits width n) = n := by
  have hzeros (k : Nat) : spelled (List.replicate k '0') = 0 := by
    induction k with
    | zero => rfl
    | succ k ih => simp [List.replicate_succ, spelled, ih]
  rw [paddedDigits, spelled_append, hzeros, Nat.zero_mul, Nat.zero_add, spelled_digits]

theorem isDigit_of_mem_paddedDigits {width n : Nat} {c : Char} (h : c ∈ paddedDigits width n) :
    c.isDigit = true := by
  rcases List.mem_append.mp h with hzero | hdigit
  · rw [List.eq_of_mem_replicate hzero]
    decide
  · exact isDigit_of_mem_digits hdigit

/-- A number that is small enough is padded to exactly the width. -/
theorem length_paddedDigits {width n : Nat} (hwidth : 0 < width) (h : n < 10 ^ width) :
    (paddedDigits width n).length = width := by
  have hdigits : (digits n).length ≤ width :=
    (Nat.length_toDigits_le_iff (by decide) hwidth).mpr h
  rw [paddedDigits, List.length_append, List.length_replicate]
  omega

/-! ## Reading back -/

/-- The characters that an exact decimal is written with. -/
def isNumeral (c : Char) : Bool :=
  c.isDigit || c = '+' || c = '-' || c = '.'

/-- Reads a text as an exact decimal. Characters that belong to no number do not count. -/
def readExact? (text : String) : Option ℚ :=
  let numeral := text.toList.filter isNumeral
  let decimals := (numeral.dropWhile (· ≠ '.')).tail
  (readInteger? (numeral.takeWhile (· ≠ '.') ++ decimals)).map fun n =>
    (n : ℚ) / 10 ^ decimals.length

theorem isNumeral_of_isDigit {c : Char} (h : c.isDigit = true) : isNumeral c = true := by
  rw [isNumeral, h]
  rfl

theorem Groups.filter_chars (g : Groups) : g.chars.filter isNumeral = g.digits := by
  have hcomma : isNumeral ',' = false := by decide
  have hall : ∀ c ∈ g.digits, isNumeral c = true := fun c hc =>
    isNumeral_of_isDigit (g.isDigit_of_mem c hc)
  have hgroup : ∀ group ∈ g.others, (',' :: group).filter isNumeral = group := by
    intro group hgroup
    rw [List.filter_cons_of_neg (by simp [hcomma])]
    refine List.filter_eq_self.mpr fun c hc => hall c ?_
    exact List.mem_append_right _ (List.mem_flatten.mpr ⟨group, hgroup, hc⟩)
  rw [chars, List.filter_append, List.filter_flatMap, List.flatMap_congr hgroup, digits,
    List.filter_eq_self.mpr fun c hc => hall c (List.mem_append_left _ hc), List.flatMap_id']

end RetirementVault.Text
