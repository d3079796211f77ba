import RetirementVault.Proofs.Projection.Adjustment

/-!
# An adjustment on its way

While an adjustment is typed the field holds a draft of it: a minus or nothing, and then digits, as
many as there are so far, so perhaps none (`Draft`). Cleaning makes a draft of every text and leaves
a draft as it is, and of the drafts that can be picked from a text it is the one with all its
digits, and with its minus if the text begins with one (`sanitize_eq_iff`).

Cleaning goes by the places of what was typed: a minus stays at the first place only
(`sanitize_eq_byPlace`). In the draft the characters have other places, so that a second cleaning
might drop what the first one kept. It does not, because nothing but the first character depends
on its place, and a first character that stays is first again.
-/

set_option autoImplicit false

namespace RetirementVault.Projection

open Text

/-! ## Drafts -/

/-- What the field of an adjustment accepts, `-?[0-9]*`. -/
structure Draft where
  sign : Sign
  digits : List Char
  sign_ne_plus : sign ≠ .plus
  isDigit_of_mem : ∀ c ∈ digits, c.isDigit = true

namespace Draft

def chars (d : Draft) : List Char :=
  d.sign.chars ++ d.digits

def value (d : Draft) : Int :=
  if d.sign = .minus then -(spelled d.digits : Int) else spelled d.digits

theorem head?_chars (d : Draft) : d.chars.head? = some '-' ↔ d.sign = .minus :=
  Sign.head?_append d.isDigit_of_mem

theorem filter_chars (d : Draft) : d.chars.filter Char.isDigit = d.digits :=
  Sign.filter_append d.sign d.isDigit_of_mem

/-- A draft with digits is a literal. -/
def literal (d : Draft) (h : d.digits ≠ []) : Literal :=
  ⟨d.sign, d.digits, h, d.isDigit_of_mem⟩

end Draft

/-- Whether a text is a draft. -/
def IsDraft (s : List Char) : Prop :=
  ∃ d : Draft, d.chars = s

/-! ## Cleaning, place by place -/

def staysAt (c : Char) (place : Nat) : Bool :=
  c.isDigit || (c == '-' && place == 0)

/-- Behind the first place only digits stay. -/
theorem filter_staysAt_zipIdx (s : List Char) (place : Nat) :
    ((s.zipIdx (place + 1)).filter fun e => staysAt e.1 e.2).map Prod.fst =
      s.filter Char.isDigit := by
  induction s generalizing place with
  | nil => rfl
  | cons c rest ih =>
    have hstays : staysAt c (place + 1) = c.isDigit := by simp [staysAt]
    rw [List.zipIdx_cons, List.filter_cons, List.filter_cons, hstays]
    split
    · rw [List.map_cons, ih]
    · exact ih (place + 1)

theorem sanitize_eq_byPlace (s : List Char) :
    sanitize s = (s.zipIdx.filter fun e => staysAt e.1 e.2).map Prod.fst := by
  cases s with
  | nil => rfl
  | cons c rest =>
    have hstays : staysAt c 0 = true ↔ c = '-' ∨ c.isDigit = true := by simp [staysAt, or_comm]
    have hrest := filter_staysAt_zipIdx rest 0
    simp only [sanitize, ← hstays, List.zipIdx_cons, List.filter_cons]
    split
    · rw [List.map_cons, hrest]
    · exact hrest.symm

/-- Cleaning picks characters and changes none, nor their order. -/
theorem sanitize_sublist (s : List Char) : (sanitize s).Sublist s := by
  have hpicked : (s.zipIdx.filter fun e => staysAt e.1 e.2).Sublist s.zipIdx := List.filter_sublist
  have hchars := hpicked.map Prod.fst
  rwa [← sanitize_eq_byPlace, List.zipIdx_map_fst] at hchars

/-! ## Cleaning is a projection onto the drafts -/

def draftOf (s : List Char) : Draft where
  sign := if s.head? = some '-' then .minus else .none
  digits := s.filter Char.isDigit
  sign_ne_plus := by split <;> decide
  isDigit_of_mem _ h := (List.mem_filter.mp h).2

theorem chars_draftOf (s : List Char) : (draftOf s).chars = sanitize s := by
  rw [sanitize_eq]
  unfold Draft.chars draftOf leadingMinus
  split <;> rfl

theorem isDraft_sanitize (s : List Char) : IsDraft (sanitize s) :=
  ⟨draftOf s, chars_draftOf s⟩

/-- No digit is lost. -/
theorem filter_sanitize (s : List Char) :
    (sanitize s).filter Char.isDigit = s.filter Char.isDigit := by
  rw [← chars_draftOf]
  exact (draftOf s).filter_chars

/-- A minus in front is neither lost nor found. -/
theorem head?_sanitize (s : List Char) :
    (sanitize s).head? = some '-' ↔ s.head? = some '-' := by
  have hsign : (draftOf s).sign = .minus ↔ s.head? = some '-' := by simp [draftOf]
  rw [← chars_draftOf, Draft.head?_chars, hsign]

/-- Cleaning sees the digits and the minus in front, and nothing else. -/
theorem sanitize_congr {s t : List Char} (hhead : s.head? = some '-' ↔ t.head? = some '-')
    (hdigits : s.filter Char.isDigit = t.filter Char.isDigit) : sanitize s = sanitize t := by
  rw [sanitize_eq, sanitize_eq, hdigits, leadingMinus, leadingMinus]
  simp only [hhead]

theorem sanitize_sanitize (s : List Char) : sanitize (sanitize s) = sanitize s :=
  sanitize_congr (head?_sanitize s) (filter_sanitize s)

theorem Draft.sanitize_chars (d : Draft) : sanitize d.chars = d.chars := by
  have hminus : leadingMinus d.chars = d.sign.chars := by
    simp only [leadingMinus, d.head?_chars]
    cases hsign : d.sign with
    | none | minus => rfl
    | plus => exact absurd hsign d.sign_ne_plus
  rw [sanitize_eq, hminus, d.filter_chars, Draft.chars]

/-- The drafts are the texts that cleaning leaves as they are. -/
theorem sanitize_eq_self_iff {s : List Char} : sanitize s = s ↔ IsDraft s := by
  constructor
  · intro h
    rw [← h]
    exact isDraft_sanitize s
  · rintro ⟨d, rfl⟩
    exact d.sanitize_chars

/-- A draft picked from a text is its cleaning if it has all its digits, and a minus just when the
text begins with one. -/
theorem sanitize_eq_iff {s t : List Char} :
    sanitize s = t ↔
      t.Sublist s ∧ IsDraft t ∧ (s.filter Char.isDigit).Sublist t ∧
        (t.head? = some '-' ↔ s.head? = some '-') := by
  constructor
  · rintro rfl
    have hdigits : (s.filter Char.isDigit).Sublist (sanitize s) := by
      rw [← filter_sanitize]
      exact List.filter_sublist
    exact ⟨sanitize_sublist s, isDraft_sanitize s, hdigits, head?_sanitize s⟩
  · rintro ⟨hpicked, hdraft, hdigits, hhead⟩
    -- The digits of each of the two are among those of the other, so that they are the same.
    have hmost := hdigits.filter Char.isDigit
    simp only [List.filter_filter, Bool.and_self] at hmost
    have hsame : t.filter Char.isDigit = s.filter Char.isDigit :=
      (hpicked.filter Char.isDigit).eq_of_length_le hmost.length_le
    calc
      sanitize s = sanitize t := sanitize_congr hhead.symm hsame.symm
      _ = t := sanitize_eq_self_iff.mpr hdraft

/-! ## What a draft is read as -/

theorem Draft.parseAdjustment_chars (d : Draft) :
    parseAdjustment (String.ofList d.chars) =
      if d.digits ≠ [] ∧ Word.IsSigned d.value then d.value else 0 := by
  by_cases hdigits : d.digits = []
  · rw [if_neg fun h => h.1 hdigits, Draft.chars, hdigits, List.append_nil]
    cases d.sign <;> decide
  · simp only [hdigits, ne_eq, not_false_eq_true, true_and]
    exact parseAdjustment_text (d.literal hdigits)

/-- **Cleaning is a projection onto the drafts.** Of every text it picks the one draft with all its
digits, and with a minus just when the text begins with one; it leaves the drafts as they are and
nothing else, and done twice it does no more than done once. What is left is read as the number it
spells, or as no adjustment if there are no digits or no signed word holds the number. -/
theorem cleaning_projects_onto_drafts (s : List Char) :
    (∀ t, sanitize s = t ↔
      t.Sublist s ∧ IsDraft t ∧ (s.filter Char.isDigit).Sublist t ∧
        (t.head? = some '-' ↔ s.head? = some '-')) ∧
    (sanitize s = s ↔ IsDraft s) ∧
    sanitize (sanitize s) = sanitize s ∧
    ∀ d : Draft, d.chars = sanitize s →
      parseAdjustment (String.ofList (sanitize s)) =
        if d.digits ≠ [] ∧ Word.IsSigned d.value then d.value else 0 := by
  refine ⟨fun _ => sanitize_eq_iff, sanitize_eq_self_iff, sanitize_sanitize s, ?_⟩
  intro d hd
  rw [← hd]
  exact d.parseAdjustment_chars

/-- The least number there is, with a comma before every third digit. One above the largest is no
adjustment. -/
theorem cleaning_projects_onto_drafts_at_the_ends :
    let digits : List Char := "9223372036854775808".toList
    let least : Draft := ⟨.minus, digits, by decide, List.all_eq_true.mp (by decide)⟩
    let beyond : Draft := ⟨.none, digits, by decide, List.all_eq_true.mp (by decide)⟩
    least.chars = sanitize "-9,223,372,036,854,775,808".toList ∧
    beyond.chars = sanitize "9,223,372,036,854,775,808".toList ∧
    parseAdjustment (String.ofList (sanitize "-9,223,372,036,854,775,808".toList)) =
      -9223372036854775808 ∧
    parseAdjustment (String.ofList (sanitize "9,223,372,036,854,775,808".toList)) = 0 := by
  intro digits least beyond
  have hleast : least.chars = sanitize "-9,223,372,036,854,775,808".toList := by decide
  have hbeyond : beyond.chars = sanitize "9,223,372,036,854,775,808".toList := by decide
  obtain ⟨-, -, -, hreadLeast⟩ :=
    cleaning_projects_onto_drafts "-9,223,372,036,854,775,808".toList
  obtain ⟨-, -, -, hreadBeyond⟩ :=
    cleaning_projects_onto_drafts "9,223,372,036,854,775,808".toList
  refine ⟨hleast, hbeyond, (hreadLeast least hleast).trans ?_,
    (hreadBeyond beyond hbeyond).trans ?_⟩
  · have hheld : least.digits ≠ [] ∧ Word.IsSigned least.value := by decide
    rw [if_pos hheld]
    decide
  · have hlost : ¬(beyond.digits ≠ [] ∧ Word.IsSigned beyond.value) := by decide
    exact if_neg hlost

end RetirementVault.Projection
