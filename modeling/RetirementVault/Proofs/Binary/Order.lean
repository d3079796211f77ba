import RetirementVault.Proofs.Binary.Size

/-!
# Rounding keeps the order

A value that is a number has a place on one line of units (`Value.place`); an infinity has the place
at which everything too large is cut off. To compare values is to compare their places
(`le_iff_place`), and the place of a sum is the sum of the places, rounded (`place_add`).

So one fact carries all comparisons of results: **what is larger is not rounded to less**
(`Format.roundUnits_mono`). Within a binade the step from one value to the next is the same and it
holds for half-even rounding; and between two binades there is a power of two that neither side
passes. Together with the fact that a value is its own rounding this gives that an operation never
passes a value that its exact result does not pass.

The two zeros have one place. Every other value is known from its place (`eq_of_place_eq`), and a
sum is a negative zero only if both its terms are.
-/

set_option autoImplicit false

namespace RetirementVault.Binary

@[simp] theorem signed_true (size : Nat) : signed true size = -(size : Int) := rfl

@[simp] theorem signed_false (size : Nat) : signed false size = size := rfl

/-! ## Rounding -/

theorem roundHalfEven_mono {num num' : Nat} (h : num ≤ num') (den : Nat) :
    roundHalfEven num den ≤ roundHalfEven num' den := by
  have hquotient : num / den ≤ num' / den := Nat.div_le_div_right h
  rcases Nat.lt_or_eq_of_le hquotient with hlt | heq
  · exact Nat.le_trans (roundHalfEven_le_of_lt hlt) (le_roundHalfEven num' den)
  · have hsplit := Nat.div_add_mod num den
    have hsplit' := Nat.div_add_mod num' den
    rw [heq] at hsplit
    have hrest : num % den ≤ num' % den := by omega
    unfold roundHalfEven
    rw [heq]
    dsimp only
    generalize num % den = rest at hrest
    generalize num' % den = rest' at hrest
    generalize num' / den = whole
    repeat' split
    all_goals omega

namespace Format

variable {F : Format}

/-- Rounding keeps the first bit of a quotient. -/
theorem two_pow_log2_le_roundUnits (F : Format) {num den : Nat} (h : num / den ≠ 0) :
    2 ^ (num / den).log2 ≤ F.roundUnits num den := by
  have hspare : F.spareBits (num / den) ≤ (num / den).log2 := by
    have hp := F.precision_pos
    unfold spareBits
    omega
  have hsplit : 2 ^ (num / den).log2
      = 2 ^ ((num / den).log2 - F.spareBits (num / den)) * 2 ^ F.spareBits (num / den) := by
    rw [← Nat.pow_add, Nat.sub_add_cancel hspare]
  unfold roundUnits
  rw [hsplit]
  refine Nat.mul_le_mul_right _ (Nat.le_trans ?_ (le_roundHalfEven _ _))
  rw [← Nat.div_div_eq_div_mul, Nat.le_div_iff_mul_le (Nat.two_pow_pos _), ← hsplit]
  exact Nat.log2_self_le h

/-- **What is larger is not rounded to less.** -/
theorem roundUnits_mono (F : Format) {num num' den : Nat} (hden : 0 < den) (h : num ≤ num') :
    F.roundUnits num den ≤ F.roundUnits num' den := by
  have hquotient : num / den ≤ num' / den := Nat.div_le_div_right h
  by_cases hspare : F.spareBits (num / den) = F.spareBits (num' / den)
  · unfold roundUnits
    rw [hspare]
    exact Nat.mul_le_mul_right _ (roundHalfEven_mono h _)
  · -- The larger quotient begins with a power of two that the smaller one does not reach.
    have hpos : num' / den ≠ 0 := by
      intro hzero
      have hzero' : num / den = 0 := Nat.le_zero.mp (hzero ▸ hquotient)
      exact hspare (by rw [hzero, hzero'])
    have hbelow : num / den < 2 ^ (num' / den).log2 := by
      refine Nat.lt_of_not_le fun hreach => hspare ?_
      have hpos' : num / den ≠ 0 := Nat.ne_of_gt (Nat.lt_of_lt_of_le (Nat.two_pow_pos _) hreach)
      have hge := (Nat.le_log2 hpos').mpr hreach
      have hle := (Nat.le_log2 hpos).mpr (Nat.le_trans (Nat.log2_self_le hpos') hquotient)
      unfold spareBits
      rw [Nat.le_antisymm hle hge]
    have hlt : num < 2 ^ (num' / den).log2 * den := (Nat.div_lt_iff_lt_mul hden).mp hbelow
    exact Nat.le_trans (F.roundUnits_le_two_pow hden (Nat.le_of_lt hlt))
      (F.two_pow_log2_le_roundUnits hpos)

/-- A quotient that is a count that fits is not changed. -/
theorem roundUnits_mul {units den : Nat} (hfits : F.Fits units) (hden : 0 < den) :
    F.roundUnits (units * den) den = units := by
  obtain ⟨m, hm⟩ := hfits
  have hexact : units * den = m * (den * 2 ^ F.spareBits units) := by
    rw [Nat.mul_left_comm, Nat.mul_comm m, ← hm, Nat.mul_comm]
  unfold roundUnits
  rw [Nat.mul_div_cancel _ hden]
  dsimp only
  rw [hexact, roundHalfEven_mul (Nat.mul_pos hden (Nat.two_pow_pos _)), Nat.mul_comm, ← hm]

/-- The nearest count of units to a quotient, cut off at the limit. -/
def nearest (F : Format) (num den : Nat) : Nat :=
  min (F.roundUnits num den) F.limit

theorem nearest_mono (F : Format) {num num' den : Nat} (hden : 0 < den) (h : num ≤ num') :
    F.nearest num den ≤ F.nearest num' den := by
  have hround := F.roundUnits_mono hden h
  unfold nearest
  omega

theorem nearest_mul {units den : Nat} (hfits : F.Fits units) (hsmall : units < F.limit)
    (hden : 0 < den) : F.nearest (units * den) den = units := by
  rw [nearest, roundUnits_mul hfits hden, Nat.min_eq_left (Nat.le_of_lt hsmall)]

/-- The next count up fits as well. -/
theorem fits_add_two_pow {units : Nat} (hfits : F.Fits units) :
    F.Fits (units + 2 ^ F.spareBits units) := by
  obtain ⟨m, hm⟩ := hfits
  have hm' : units = m * 2 ^ F.spareBits units := by rw [Nat.mul_comm, ← hm]
  have hbits : units.log2 + 1 ≤ F.precision + F.spareBits units := by
    unfold spareBits
    omega
  have hlt : m * 2 ^ F.spareBits units < 2 ^ F.precision * 2 ^ F.spareBits units := by
    rw [← hm', ← Nat.pow_add]
    exact Nat.lt_of_lt_of_le Nat.lt_log2_self (Nat.pow_le_pow_right (by decide) hbits)
  have hsum : units + 2 ^ F.spareBits units = (m + 1) * 2 ^ F.spareBits units := by
    rw [Nat.succ_mul, ← hm']
  rw [hsum]
  exact F.fits_mul_two_pow (Nat.lt_of_mul_lt_mul_right hlt) _

/-- A quotient that reaches the next count up is not rounded back. -/
theorem lt_nearest {units num den : Nat} (hfits : F.Fits units) (hsmall : units < F.limit)
    (hden : 0 < den) (h : (units + 2 ^ F.spareBits units) * den ≤ num) :
    units < F.nearest num den := by
  have hstep : 0 < 2 ^ F.spareBits units := Nat.two_pow_pos _
  have hround := F.roundUnits_mono hden h
  rw [roundUnits_mul (fits_add_two_pow hfits) hden] at hround
  unfold nearest
  omega

/-- The nearest place to a place on the line of units. -/
def nearestPlace (F : Format) (place : Int) : Int :=
  signed (decide (place < 0)) (F.nearest place.natAbs 1)

theorem nearestPlace_mono (F : Format) {place place' : Int} (h : place ≤ place') :
    F.nearestPlace place ≤ F.nearestPlace place' := by
  have hround : ∀ {m n : Nat}, m ≤ n → F.nearest m 1 ≤ F.nearest n 1 := F.nearest_mono Nat.one_pos
  unfold nearestPlace
  by_cases hneg : place < 0
  · by_cases hneg' : place' < 0
    · have hle := hround (show place'.natAbs ≤ place.natAbs by omega)
      simp only [hneg, hneg', decide_true, signed_true]
      omega
    · simp only [hneg, hneg', decide_true, decide_false, signed_true, signed_false]
      omega
  · have hneg' : ¬ place' < 0 := by omega
    have hle := hround (show place.natAbs ≤ place'.natAbs by omega)
    simp only [hneg, hneg', decide_false, signed_false]
    omega

theorem nearestPlace_signed {units : Nat} (hfits : F.Fits units) (hsmall : units < F.limit)
    (negative : Bool) : F.nearestPlace (signed negative units) = signed negative units := by
  have habs : (signed negative units).natAbs = units * 1 := by
    unfold signed
    split <;> omega
  unfold nearestPlace
  rw [habs, nearest_mul hfits hsmall Nat.one_pos]
  cases negative with
  | false =>
    have hnonneg : ¬ (units : Int) < 0 := by omega
    simp [hnonneg]
  | true =>
    rcases Nat.eq_zero_or_pos units with rfl | hpos
    · rfl
    · have hneg : -(units : Int) < 0 := by omega
      simp only [signed_true, hneg, decide_true]

end Format

namespace Value

variable {F : Format}

/-! ## Places -/

/-- Where a value stands on the line of units. -/
def place : Value F → Int
  | .nan => 0
  | .infinite negative => signed negative F.limit
  | .finite negative units _ _ => signed negative units

theorem signed_lt_limit {units : Nat} (hsmall : units < F.limit) (negative : Bool) :
    signed negative units < F.limit := by
  cases negative with
  | false => exact Int.ofNat_lt.mpr hsmall
  | true =>
    rw [signed_true]
    omega

theorem neg_limit_lt_signed {units : Nat} (hsmall : units < F.limit) (negative : Bool) :
    -F.limit < signed negative units := by
  cases negative with
  | false =>
    rw [signed_false]
    omega
  | true =>
    rw [signed_true]
    omega

theorem signed_limit_ne {units : Nat} (hsmall : units < F.limit) (s t : Bool) :
    signed s F.limit ≠ signed t units := by
  cases s with
  | false => exact (Int.ne_of_lt (signed_lt_limit hsmall t)).symm
  | true => exact Int.ne_of_lt (neg_limit_lt_signed hsmall t)

theorem place_le_limit (a : Value F) : a.place ≤ F.limit := by
  cases a with
  | nan => exact Int.natCast_nonneg _
  | infinite s => cases s <;> simp [place]
  | finite s u fits small => exact Int.le_of_lt (signed_lt_limit small s)

theorem neg_limit_le_place (a : Value F) : -F.limit ≤ a.place := by
  cases a with
  | nan => simp [place]
  | infinite s => cases s <;> simp [place]
  | finite s u fits small => exact Int.le_of_lt (neg_limit_lt_signed small s)

theorem lt_iff_place {a b : Value F} (ha : a ≠ .nan) (hb : b ≠ .nan) :
    a.lt b = true ↔ a.place < b.place := by
  cases a with
  | nan => exact absurd rfl ha
  | infinite s =>
    cases b with
    | nan => exact absurd rfl hb
    | infinite t =>
      have hpos : 0 < F.limit := Nat.two_pow_pos _
      have hlimit : -F.limit < (F.limit : Int) := by omega
      cases s <;> cases t <;> simp [lt, place, hlimit]
    | finite t v fits small =>
      cases s with
      | false => simp [lt, place, Int.le_of_lt (signed_lt_limit small t)]
      | true => simp [lt, place, neg_limit_lt_signed small t]
  | finite s u fits small =>
    cases b with
    | nan => exact absurd rfl hb
    | infinite t =>
      cases t with
      | false => simp [lt, place, signed_lt_limit small s]
      | true => simp [lt, place, Int.le_of_lt (neg_limit_lt_signed small s)]
    | finite t v fits small => exact decide_eq_true_iff

theorem le_iff_place {a b : Value F} (ha : a ≠ .nan) (hb : b ≠ .nan) :
    a.le b = true ↔ a.place ≤ b.place := by
  have hle : a.le b = !b.lt a := by cases a <;> cases b <;> simp_all [le]
  rw [hle, Bool.not_eq_true', ← Bool.not_eq_true, lt_iff_place hb ha, Int.not_lt]

theorem ne_nan_of_le {a b : Value F} (h : a.le b = true) : a ≠ .nan ∧ b ≠ .nan := by
  constructor
  · rintro rfl
    exact absurd h (by simp [le])
  · rintro rfl
    exact absurd h (by cases a <;> simp [le])

theorem place_le_of_le {a b : Value F} (h : a.le b = true) : a.place ≤ b.place :=
  (le_iff_place (ne_nan_of_le h).1 (ne_nan_of_le h).2).mp h

theorem le_refl {a : Value F} (ha : a ≠ .nan) : a.le a = true :=
  (le_iff_place ha ha).mpr (Int.le_refl _)

theorem le_trans {a b c : Value F} (hab : a.le b = true) (hbc : b.le c = true) : a.le c = true :=
  (le_iff_place (ne_nan_of_le hab).1 (ne_nan_of_le hbc).2).mpr
    (Int.le_trans (place_le_of_le hab) (place_le_of_le hbc))

theorem le_of_lt {a b : Value F} (h : a.lt b = true) : a.le b = true := by
  have ha : a ≠ .nan := by
    rintro rfl
    exact absurd h (by simp [lt])
  have hb : b ≠ .nan := by
    rintro rfl
    exact absurd h (by cases a <;> simp [lt])
  exact (le_iff_place ha hb).mpr (Int.le_of_lt ((lt_iff_place ha hb).mp h))

theorem le_of_not_lt {a b : Value F} (ha : a ≠ .nan) (hb : b ≠ .nan) (h : ¬ a.lt b = true) :
    b.le a = true := by
  rw [lt_iff_place ha hb, Int.not_lt] at h
  exact (le_iff_place hb ha).mpr h

theorem max_of_ne_nan {a : Value F} (ha : a ≠ .nan) (b : Value F) :
    a.max b = if a.lt b then b else a :=
  if_neg ha

theorem le_max_left {a b : Value F} (ha : a ≠ .nan) : a.le (a.max b) = true := by
  rw [max_of_ne_nan ha]
  split
  · next hlt => exact le_of_lt hlt
  · exact le_refl ha

theorem le_max_right {a b : Value F} (ha : a ≠ .nan) (hb : b ≠ .nan) : b.le (a.max b) = true := by
  rw [max_of_ne_nan ha]
  split
  · exact le_refl hb
  · next hlt => exact le_of_not_lt ha hb hlt

theorem min_of_ne_nan {a : Value F} (ha : a ≠ .nan) (b : Value F) :
    a.min b = if b.lt a then b else a :=
  if_neg ha

theorem min_eq_or (a b : Value F) : a.min b = a ∨ a.min b = b := by
  unfold Value.min
  split
  · exact .inr rfl
  · split
    · exact .inr rfl
    · exact .inl rfl

theorem min_le_left {a b : Value F} (ha : a ≠ .nan) : (a.min b).le a = true := by
  rw [min_of_ne_nan ha]
  split
  · next hlt => exact le_of_lt hlt
  · exact le_refl ha

theorem min_le_right {a b : Value F} (ha : a ≠ .nan) (hb : b ≠ .nan) : (a.min b).le b = true := by
  rw [min_of_ne_nan ha]
  split
  · exact le_refl hb
  · next hlt => exact le_of_not_lt hb ha hlt

/-! ## Results -/

theorem place_ofUnits (negative : Bool) (num den : Nat) :
    (ofUnits F negative num den).place = signed negative (F.nearest num den) := by
  unfold ofUnits Format.nearest
  split
  · next hsmall => rw [place, Nat.min_eq_left (Nat.le_of_lt hsmall)]
  · next hlarge => rw [place, Nat.min_eq_right (Nat.not_lt.mp hlarge)]

theorem ofNat_ne_nan (n : Nat) : ofNat F n ≠ .nan :=
  ofUnits_ne_nan _ _ _

/-- Natural numbers keep their order, though different ones may come to be level. -/
theorem ofNat_le_ofNat {m n : Nat} (h : m ≤ n) : (ofNat F m).le (ofNat F n) = true := by
  refine (le_iff_place (ofNat_ne_nan m) (ofNat_ne_nan n)).mpr ?_
  unfold ofNat ofRatio
  rw [place_ofUnits, place_ofUnits]
  exact Int.ofNat_le.mpr (F.nearest_mono Nat.one_pos (Nat.mul_le_mul_right _ h))

theorem nearestPlace_place {a : Value F} (ha : a.isFinite = true) :
    F.nearestPlace a.place = a.place := by
  cases a with
  | nan | infinite => exact absurd ha (by simp [isFinite])
  | finite s u fits small => exact Format.nearestPlace_signed fits small s

/-- The place of a sum is the nearest one to the sum of the places. -/
theorem place_add {a b : Value F} (ha : a.isFinite = true) (hb : b.isFinite = true) :
    (a + b).place = F.nearestPlace (a.place + b.place) := by
  cases a with
  | nan | infinite => exact absurd ha (by simp [isFinite])
  | finite s u _ _ =>
    cases b with
    | nan | infinite => exact absurd hb (by simp [isFinite])
    | finite t v _ _ =>
      show (add _ _).place = F.nearestPlace (signed s u + signed t v)
      unfold add
      dsimp only
      split
      · next hzero =>
        have hplace := nearestPlace_place (show (zero F (s && t)).isFinite = true from rfl)
        have hsum : (zero F (s && t)).place = signed s u + signed t v := by
          rw [hzero]
          cases s <;> cases t <;> rfl
        rw [← hsum, hplace]
      · exact place_ofUnits _ _ _

theorem ne_nan_of_isFinite {a : Value F} (ha : a.isFinite = true) : a ≠ .nan := by
  rintro rfl
  exact absurd ha (by simp [isFinite])

theorem infinite_add {negative : Bool} {b : Value F} (hb : b.isFinite = true) :
    (.infinite negative : Value F) + b = .infinite negative := by
  cases b with
  | nan | infinite => exact absurd hb (by simp [isFinite])
  | finite => rfl

theorem add_ne_nan {a b : Value F} (ha : a ≠ .nan) (hb : b.isFinite = true) : a + b ≠ .nan := by
  cases b with
  | nan | infinite => exact absurd hb (by simp [isFinite])
  | finite t v _ _ =>
    cases a with
    | nan => exact absurd rfl ha
    | infinite s =>
      intro hnan
      cases hnan
    | finite s u _ _ =>
      show add _ _ ≠ .nan
      unfold add
      dsimp only
      split
      · intro hnan
        cases hnan
      · exact ofUnits_ne_nan _ _ _

/-- **Sums keep the order of their terms.** -/
theorem add_le_add {a b c d : Value F} (hac : a.le c = true) (hbd : b.le d = true)
    (hb : b.isFinite = true) (hd : d.isFinite = true) : (a + b).le (c + d) = true := by
  obtain ⟨ha, hc⟩ := ne_nan_of_le hac
  have hplace := place_le_of_le hac
  refine (le_iff_place (add_ne_nan ha hb) (add_ne_nan hc hd)).mpr ?_
  cases a with
  | nan => exact absurd rfl ha
  | infinite s =>
    rw [infinite_add hb]
    cases c with
    | nan => exact absurd rfl hc
    | infinite t => rwa [infinite_add hd]
    | finite t v fits small =>
      -- Above infinity there is nothing finite, so this infinity is below everything.
      cases s with
      | false => exact absurd hplace (Int.not_le.mpr (signed_lt_limit small t))
      | true => exact neg_limit_le_place _
  | finite s u fits small =>
    cases c with
    | nan => exact absurd rfl hc
    | infinite t =>
      rw [infinite_add hd]
      cases t with
      | false => exact place_le_limit _
      | true => exact absurd hplace (Int.not_le.mpr (neg_limit_lt_signed small s))
    | finite t v fits' small' =>
      rw [place_add rfl hb, place_add rfl hd]
      exact F.nearestPlace_mono (Int.add_le_add hplace (place_le_of_le hbd))

theorem le_add_of_nonneg {a b : Value F} (ha : a ≠ .nan) (hb : b.isFinite = true)
    (hnonneg : 0 ≤ b.place) : a.le (a + b) = true := by
  refine (le_iff_place ha (add_ne_nan ha hb)).mpr ?_
  cases a with
  | nan => exact absurd rfl ha
  | infinite s => exact Int.le_of_eq (congrArg place (infinite_add hb).symm)
  | finite s u fits small =>
    have hfinite : (finite s u fits small).isFinite = true := rfl
    rw [place_add hfinite hb]
    calc (finite s u fits small).place
        = F.nearestPlace (finite s u fits small).place := (nearestPlace_place hfinite).symm
      _ ≤ _ := F.nearestPlace_mono (Int.le_add_of_nonneg_right hnonneg)

/-! ## Signs -/

def sign : Value F → Bool
  | .nan => false
  | .infinite negative => negative
  | .finite negative _ _ _ => negative

theorem place_nonneg {a : Value F} (h : a.sign = false) : 0 ≤ a.place := by
  cases a with
  | nan => exact Int.le_refl _
  | infinite s =>
    obtain rfl : s = false := h
    exact Int.natCast_nonneg _
  | finite s u fits small =>
    obtain rfl : s = false := h
    exact Int.natCast_nonneg _

theorem sign_ofUnits (negative : Bool) (num den : Nat) :
    (ofUnits F negative num den).sign = negative := by
  unfold ofUnits
  split <;> rfl

theorem sign_ofRatio (negative : Bool) (num den : Nat) :
    (ofRatio F negative num den).sign = negative :=
  sign_ofUnits negative _ den

theorem sign_mul {a b : Value F} (ha : a.sign = false) (hb : b.sign = false) :
    (a * b).sign = false := by
  show (mul a b).sign = false
  unfold mul
  cases a with
  | nan => rfl
  | infinite s =>
    obtain rfl : s = false := ha
    cases b with
    | nan => rfl
    | infinite t =>
      obtain rfl : t = false := hb
      rfl
    | finite t v _ _ =>
      obtain rfl : t = false := hb
      dsimp only
      split <;> rfl
  | finite s u _ _ =>
    obtain rfl : s = false := ha
    cases b with
    | nan => rfl
    | infinite t =>
      obtain rfl : t = false := hb
      dsimp only
      split <;> rfl
    | finite t v _ _ =>
      obtain rfl : t = false := hb
      exact sign_ofUnits _ _ _

theorem sign_exp (a : Value F) : (exp a).sign = false := by
  unfold exp
  cases a with
  | nan => rfl
  | infinite s => cases s <;> rfl
  | finite s u _ _ =>
    dsimp only
    split
    · split <;> rfl
    · split <;> exact sign_ofRatio _ _ _

theorem place_ofUnits_ne_zero (negative : Bool) {units : Nat} (h : units ≠ 0) :
    (ofUnits F negative units 1).place ≠ 0 := by
  have hfits : F.Fits 1 := by
    have hbit := F.fits_mul_two_pow Nat.one_le_two_pow 0
    rwa [Nat.pow_zero, Nat.mul_one] at hbit
  have hsmall : 1 < F.limit := by
    have hp := F.precision_pos
    exact Nat.one_lt_two_pow (by omega)
  have hone := Format.nearest_mul hfits hsmall Nat.one_pos
  have hmono := F.nearest_mono Nat.one_pos (Nat.one_le_iff_ne_zero.mpr h)
  rw [Nat.mul_one] at hone
  rw [place_ofUnits, signed]
  split <;> omega

/-- A sum is a negative zero only if its terms are negative. -/
theorem add_ne_negative_zero {a b : Value F} (hb : b.sign = false) : a + b ≠ zero F true := by
  show add a b ≠ zero F true
  unfold add zero
  cases a with
  | nan => simp
  | infinite s =>
    cases b with
    | nan => simp
    | infinite t =>
      dsimp only
      split <;> simp
    | finite t v _ _ => simp
  | finite s u _ _ =>
    cases b with
    | nan => simp
    | infinite t => simp
    | finite t v _ _ =>
      obtain rfl : t = false := hb
      dsimp only
      split
      · intro hzero
        have hsign := congrArg sign hzero
        simp [sign] at hsign
      · next hsum =>
        intro hzero
        exact place_ofUnits_ne_zero _ (Int.natAbs_ne_zero.mpr hsum) (congrArg place hzero)

/-- Except for the negative zero, a value that is a number is known from its place. -/
theorem eq_of_place_eq {a b : Value F} (ha : a ≠ .nan) (hb : b ≠ .nan) (ha' : a ≠ zero F true)
    (hb' : b ≠ zero F true) (h : a.place = b.place) : a = b := by
  cases a with
  | nan => exact absurd rfl ha
  | infinite s =>
    cases b with
    | nan => exact absurd rfl hb
    | infinite t =>
      have hpos : 0 < F.limit := Nat.two_pow_pos _
      cases s <;> cases t <;> simp [place] at h ⊢ <;> omega
    | finite t v fits small => exact absurd h (signed_limit_ne small s t)
  | finite s u fits small =>
    cases b with
    | nan => exact absurd rfl hb
    | infinite t => exact absurd h.symm (signed_limit_ne small t s)
    | finite t v _ _ =>
      cases s with
      | false =>
        cases t with
        | false =>
          obtain rfl : u = v := Int.ofNat.inj h
          rfl
        | true =>
          obtain rfl : v = 0 := by
            simp only [place, signed_true, signed_false] at h
            omega
          exact absurd rfl hb'
      | true =>
        cases t with
        | false =>
          obtain rfl : u = 0 := by
            simp only [place, signed_true, signed_false] at h
            omega
          exact absurd rfl ha'
        | true =>
          obtain rfl : u = v := by
            simp only [place, signed_true] at h
            omega
          rfl

/-! ## Products with one, with less and with more -/

theorem finite_mul_finite {s t : Bool} {u v : Nat} {fits : F.Fits u} {small : u < F.limit}
    {fits' : F.Fits v} {small' : v < F.limit} :
    (.finite s u fits small : Value F) * .finite t v fits' small'
      = ofUnits F (s != t) (u * v) (2 ^ F.scale) :=
  rfl

theorem ofUnits_mul {negative : Bool} {units den : Nat} (hfits : F.Fits units)
    (hsmall : units < F.limit) (hden : 0 < den) :
    ofUnits F negative (units * den) den = .finite negative units hfits hsmall := by
  unfold ofUnits
  simp only [Format.roundUnits_mul hfits hden, hsmall, dite_true]

section

variable (hscale : F.scale < F.precision + F.range)

include hscale

theorem ofRatio_self {n : Nat} (hn : 0 < n) : ∃ fits small,
    ofRatio F false n n = .finite false (2 ^ F.scale) fits small := by
  have hfits := F.fits_mul_two_pow Nat.one_le_two_pow F.scale
  rw [Nat.one_mul] at hfits
  have hsmall : 2 ^ F.scale < F.limit := Nat.pow_lt_pow_right (by decide) hscale
  refine ⟨hfits, hsmall, ?_⟩
  rw [ofRatio, Nat.mul_comm]
  exact ofUnits_mul hfits hsmall hn

theorem exp_zero (negative : Bool) : exp (zero F negative) = ofNat F 1 := by
  have hcutoff : ¬ expCutoff F * 2 ^ F.scale ≤ 0 :=
    Nat.not_le_of_gt (Nat.mul_pos (Nat.succ_pos _) (Nat.two_pow_pos _))
  obtain ⟨_, _, hword⟩ := ofRatio_self hscale (Nat.two_pow_pos (workingBits F))
  obtain ⟨_, _, hone⟩ := ofRatio_self hscale Nat.one_pos
  unfold exp zero
  dsimp only
  rw [if_neg hcutoff, expSeries_zero, ite_self, hword, ofNat, hone]

theorem mul_one {a : Value F} (ha : a.isFinite = true) : a * ofNat F 1 = a := by
  obtain ⟨_, _, hone⟩ := ofRatio_self hscale Nat.one_pos
  rw [ofNat, hone]
  cases a with
  | nan | infinite => exact absurd ha (by simp [isFinite])
  | finite s u fits small =>
    rw [finite_mul_finite, Bool.bne_false]
    exact ofUnits_mul fits small (Nat.two_pow_pos _)

end

/-- A product with what is at most one is at most the other factor. -/
theorem place_mul_le {a b : Value F} (ha : a.isFinite = true) (ha' : a.sign = false)
    (hb : b.AtMost F.scale) (hb' : b.sign = false) : (a * b).place ≤ a.place := by
  obtain ⟨t, v, _, _, rfl, hv⟩ := hb
  cases a with
  | nan | infinite => exact absurd ha (by simp [isFinite])
  | finite s u fits small =>
    obtain rfl : s = false := ha'
    obtain rfl : t = false := hb'
    rw [finite_mul_finite, place_ofUnits]
    refine Int.ofNat_le.mpr ?_
    calc F.nearest (u * v) (2 ^ F.scale)
        ≤ F.nearest (u * 2 ^ F.scale) (2 ^ F.scale) :=
          F.nearest_mono (Nat.two_pow_pos _) (Nat.mul_le_mul_left u hv)
      _ = u := Format.nearest_mul fits small (Nat.two_pow_pos _)

/-- A product with what is at least one is at least the other factor. -/
theorem le_place_mul {a : Value F} (ha : a.isFinite = true) (ha' : a.sign = false) {units : Nat}
    {fits : F.Fits units} {small : units < F.limit} (hunits : 2 ^ F.scale ≤ units) :
    a.place ≤ (a * .finite false units fits small).place := by
  cases a with
  | nan | infinite => exact absurd ha (by simp [isFinite])
  | finite s u fits small =>
    obtain rfl : s = false := ha'
    rw [finite_mul_finite, place_ofUnits]
    refine Int.ofNat_le.mpr ?_
    calc u = F.nearest (u * 2 ^ F.scale) (2 ^ F.scale) :=
          (Format.nearest_mul fits small (Nat.two_pow_pos _)).symm
      _ ≤ F.nearest (u * units) (2 ^ F.scale) :=
          F.nearest_mono (Nat.two_pow_pos _) (Nat.mul_le_mul_left u hunits)

end Value
end RetirementVault.Binary
