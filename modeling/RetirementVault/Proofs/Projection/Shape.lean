import Mathlib.Data.List.Sort
import RetirementVault.Projection.Shift
import RetirementVault.Proofs.Projection.Extremes

/-!
# The shape of a curve that is pulled earlier

What the shift of a series by some years looks like, said without the loop that makes it
(`Series.IsPulled`): its ages rise strictly, they are the ages the samples land at, the first is the
least age of the series, and at each stands the largest amount that landed there, the samples taken
in the order they came in. There is one such series, and the shift is it (`shift_eq_iff_isPulled`).

The loop puts one amount after the other into a series that rises. Such a series is known from what
stands at each age (`Rises.eq_of_at?`), and what one more amount changes of that is one equation
(`at?_insertLargest`). Everything else follows from it.

No property of the amounts is used, so they may be any values, not-a-number included.
-/

set_option autoImplicit false

namespace RetirementVault.Projection

open Binary

namespace Series

/-! ## Amounts by age -/

/-- Every age is above those before it. -/
def Rises (s : Series) : Prop :=
  s.Pairwise fun p q => p.age < q.age

/-- The amount that stands at an age. -/
def at? (age : UInt32) : Series → Option Single
  | [] => none
  | p :: rest => if p.age = age then some p.btc else at? age rest

theorem at?_eq_none_of_lt {s : Series} {age : UInt32} (h : ∀ p ∈ s, age < p.age) :
    s.at? age = none := by
  induction s with
  | nil => rfl
  | cons p rest ih =>
    have hp : p.age ≠ age := (UInt32.ne_of_lt (h p (by simp))).symm
    rw [at?, if_neg hp]
    exact ih fun q hq => h q (by simp [hq])

theorem Rises.mem_iff {s : Series} (h : s.Rises) {p : Sample} :
    p ∈ s ↔ s.at? p.age = some p.btc := by
  induction s with
  | nil => simp [at?]
  | cons q rest ih =>
    obtain ⟨hq, hrest⟩ := List.pairwise_cons.mp h
    rw [at?, List.mem_cons]
    by_cases hage : q.age = p.age
    · -- Whatever comes later has a larger age, so the sample is the first one or none.
      have hlater : p ∉ rest := fun hp => UInt32.ne_of_lt (hq p hp) hage
      simp only [if_pos hage, hlater, or_false, Option.some.injEq]
      constructor
      · intro heq
        rw [heq]
      · intro hbtc
        cases p
        cases q
        simp_all
    · have hne : p ≠ q := fun heq => hage (by rw [heq])
      simp only [if_neg hage, hne, false_or]
      exact ih hrest

/-- A series that rises is known from what stands at every age. -/
theorem Rises.eq_of_at? {s t : Series} (hs : s.Rises) (ht : t.Rises)
    (h : ∀ age, s.at? age = t.at? age) : s = t := by
  have : Std.Irrefl fun p q : Sample => p.age < q.age := ⟨fun p => UInt32.lt_irrefl p.age⟩
  have : Std.Antisymm fun p q : Sample => p.age < q.age :=
    ⟨fun _ _ hpq hqp => absurd hqp (UInt32.lt_asymm hpq)⟩
  refine List.Pairwise.eq_of_mem_iff hs ht ?_
  intro p
  rw [hs.mem_iff, ht.mem_iff, h]

theorem exists_age_iff {s : Series} {age : UInt32} :
    (∃ p ∈ s, p.age = age) ↔ (s.at? age).isSome = true := by
  induction s with
  | nil => simp [at?]
  | cons p rest ih =>
    rw [at?]
    by_cases hage : p.age = age
    · simp [hage]
    · simp [hage, ih]

/-! ## The loop -/

/-- What stands at an age after one more amount has arrived there. -/
def meet? (held : Option Single) (btc : Single) : Option Single :=
  some (held.elim btc fun amount => amount.max btc)

theorem foldl_meet?_some (amount : Single) (amounts : List Single) :
    amounts.foldl meet? (some amount) = some (amounts.foldl Value.max amount) := by
  induction amounts generalizing amount with
  | nil => rfl
  | cons next amounts ih => exact ih (amount.max next)

theorem foldl_meet?_none (amounts : List Single) :
    amounts.foldl meet? none = reduce? Value.max amounts := by
  cases amounts with
  | nil => rfl
  | cons first amounts => exact foldl_meet?_some first amounts

theorem lt_insertLargest {bound age : UInt32} {btc : Single} {out : Series} (hage : bound < age)
    (hout : ∀ p ∈ out, bound < p.age) : ∀ p ∈ insertLargest age btc out, bound < p.age := by
  induction out with
  | nil => simpa [insertLargest] using hage
  | cons q rest ih =>
    have hrest := ih fun p hp => hout p (by simp [hp])
    unfold insertLargest
    split
    · simpa [hage] using hout
    · split
      · simpa [hage] using fun p hp => hout p (List.mem_cons_of_mem q hp)
      · simpa [hout q (by simp)] using hrest

theorem Rises.insertLargest {out : Series} (h : out.Rises) (age : UInt32) (btc : Single) :
    Rises (insertLargest age btc out) := by
  induction out with
  | nil => simp [Rises, Projection.insertLargest]
  | cons q rest ih =>
    obtain ⟨hq, hrest⟩ := List.pairwise_cons.mp h
    unfold Projection.insertLargest
    split
    · next hlt =>
      refine List.pairwise_cons.mpr ⟨?_, h⟩
      intro p hp
      rcases List.mem_cons.mp hp with rfl | hp
      · exact hlt
      · exact UInt32.lt_trans hlt (hq p hp)
    · next hle =>
      split
      · next hage =>
        refine List.pairwise_cons.mpr ⟨?_, hrest⟩
        intro p hp
        exact hage ▸ hq p hp
      · next hne =>
        have hlt : q.age < age := UInt32.lt_of_le_of_ne (UInt32.not_lt.mp hle) (Ne.symm hne)
        exact List.pairwise_cons.mpr ⟨lt_insertLargest hlt hq, ih hrest⟩

/-- **One more amount changes what stands at its age, and nothing else.** -/
theorem at?_insertLargest {out : Series} (h : out.Rises) (age : UInt32) (btc : Single)
    (there : UInt32) :
    (insertLargest age btc out).at? there
      = if age = there then meet? (out.at? there) btc else out.at? there := by
  induction out with
  | nil => rfl
  | cons q rest ih =>
    obtain ⟨hq, hrest⟩ := List.pairwise_cons.mp h
    unfold insertLargest
    split
    · next hlt =>
      rw [at?]
      by_cases hthere : age = there
      · -- The amount is the first to arrive: all that stands there already is later.
        have hnone : at? there (q :: rest) = none := by
          refine at?_eq_none_of_lt fun p hp => ?_
          rcases List.mem_cons.mp hp with rfl | hp
          · exact hthere ▸ hlt
          · exact UInt32.lt_trans (hthere ▸ hlt) (hq p hp)
        simp only [if_pos hthere, hnone]
        rfl
      · simp only [if_neg hthere]
    · split
      · next hage =>
        rw [at?, at?]
        subst hage
        by_cases hthere : q.age = there
        · simp only [if_pos hthere]
          rfl
        · simp only [if_neg hthere]
      · next hne =>
        rw [at?, at?, ih hrest]
        by_cases hthere : q.age = there
        · have hother : age ≠ there := fun heq => hne (heq.trans hthere.symm)
          simp only [if_pos hthere, if_neg hother]
        · simp only [if_neg hthere]

section Loop

variable (age : Sample → UInt32) (btc : Sample → Single)

theorem Rises.foldl {out : Series} (h : out.Rises) (s : Series) :
    Rises (s.foldl (fun out p => Projection.insertLargest (age p) (btc p) out) out) := by
  induction s generalizing out with
  | nil => exact h
  | cons p rest ih => exact ih (h.insertLargest (age p) (btc p))

theorem at?_foldl {out : Series} (h : out.Rises) (s : Series) (there : UInt32) :
    (s.foldl (fun out p => insertLargest (age p) (btc p) out) out).at? there
      = ((s.filter fun p => age p = there).map btc).foldl meet? (out.at? there) := by
  induction s generalizing out with
  | nil => rfl
  | cons p rest ih =>
    rw [List.foldl_cons, ih (h.insertLargest (age p) (btc p)), at?_insertLargest h]
    by_cases hage : age p = there
    · simp [hage]
    · simp [hage]

end Loop

/-! ## Where samples land -/

/-- An age of a series that is not above any other. -/
def IsLeastAge (least : UInt32) (s : Series) : Prop :=
  (∃ p ∈ s, p.age = least) ∧ ∀ p ∈ s, least ≤ p.age

/-- Where a scan ends that moves on to each sample with a strictly larger amount than it is at. -/
inductive ScansTo : Sample → Series → Sample → Prop
  | ends (best : Sample) : ScansTo best [] best
  | moves {best p top : Sample} {rest : Series} (hlt : best.btc.lt p.btc = true)
      (hrest : ScansTo p rest top) : ScansTo best (p :: rest) top
  | stays {best p top : Sample} {rest : Series} (hlt : best.btc.lt p.btc = false)
      (hrest : ScansTo best rest top) : ScansTo best (p :: rest) top

/-- The age a sample lands at: some years less, but neither below zero nor below the least age. -/
def landing (least years age : UInt32) : Nat :=
  max least.toNat (age.toNat - years.toNat)

/-- The amount a sample lands with. It gains four hundredths for each year, by a factor of e less
for each eight years that it lies before the peak. -/
def raised (peak years : UInt32) (p : Sample) : Single :=
  p.btc + Value.ofRatio binary32 false 4 100 * Value.ofNat binary32 years.toNat
    * Value.exp (-Value.ofNat binary32 (peak.toNat - p.age.toNat) / Value.ofNat binary32 8)

/-- The amounts that land at an age, in the order of the samples. -/
def landed (s : Series) (years least peak : UInt32) (age : Nat) : List Single :=
  (s.filter fun p => landing least years p.age = age).map (raised peak years)

/-- What a series is like that is another one pulled earlier by some years. -/
structure IsPulled (s : Series) (years least peak : UInt32) (out : Series) : Prop where
  rises : out.Pairwise fun p q => p.age < q.age
  ages : ∀ age : Nat, (∃ q ∈ out, q.age.toNat = age) ↔ ∃ p ∈ s, landing least years p.age = age
  starts : out.head?.map Sample.age = some least
  amounts : ∀ q ∈ out, reduce? Value.max (landed s years least peak q.age.toNat) = some q.btc

theorem toNat_ageDifference (a b : UInt32) : (ageDifference a b).toNat = a.toNat - b.toNat := by
  unfold ageDifference
  split
  · next hle => exact UInt32.toNat_sub_of_le _ _ hle
  · next hlt =>
    rw [UInt32.not_le, UInt32.lt_iff_toNat_lt] at hlt
    exact (Nat.sub_eq_zero_of_le (Nat.le_of_lt hlt)).symm

theorem toNat_shiftedAge (least years age : UInt32) :
    (shiftedAge least years age).toNat = landing least years age := by
  have hdifference := toNat_ageDifference age years
  show (if ageDifference age years ≤ least then least else ageDifference age years).toNat = _
  unfold landing
  split
  · next hle =>
    rw [UInt32.le_iff_toNat_le] at hle
    omega
  · next hlt =>
    rw [UInt32.le_iff_toNat_le] at hlt
    omega

theorem shiftedBtc_eq_raised (peak years : UInt32) :
    shiftedBtc peak years = raised peak years := by
  funext p
  rw [shiftedBtc, boost, toNat_ageDifference]
  rfl

theorem leastAge_cons (first p : Sample) (rest : Series) :
    leastAge first (p :: rest)
      = if first.age ≤ p.age then leastAge first rest else leastAge p rest := by
  show rest.foldl _ (if first.age ≤ p.age then first.age else p.age) = _
  split
  · rfl
  · rfl

theorem isLeastAge_leastAge (first : Sample) (rest : Series) :
    IsLeastAge (leastAge first rest) (first :: rest) := by
  induction rest generalizing first with
  | nil =>
    refine ⟨⟨first, by simp, rfl⟩, ?_⟩
    intro p hp
    rw [List.mem_singleton.mp hp]
    exact UInt32.le_refl _
  | cons p rest ih =>
    rw [leastAge_cons]
    split
    · next hle =>
      obtain ⟨⟨q, hq, hage⟩, hleast⟩ := ih first
      have hq : q ∈ first :: p :: rest := by
        rcases List.mem_cons.mp hq with rfl | hq
        · simp
        · simp [hq]
      refine ⟨⟨q, hq, hage⟩, ?_⟩
      intro r hr
      rcases List.mem_cons.mp hr with rfl | hr
      · exact hleast r (by simp)
      · rcases List.mem_cons.mp hr with rfl | hr
        · exact UInt32.le_trans (hleast first (by simp)) hle
        · exact hleast r (by simp [hr])
    · next hlt =>
      obtain ⟨⟨q, hq, hage⟩, hleast⟩ := ih p
      refine ⟨⟨q, List.mem_cons_of_mem first hq, hage⟩, ?_⟩
      intro r hr
      rcases List.mem_cons.mp hr with rfl | hr
      · exact UInt32.le_trans (hleast p (by simp)) (UInt32.le_of_lt (UInt32.not_le.mp hlt))
      · exact hleast r hr

theorem scansTo_foldl_higher (best : Sample) (rest : Series) :
    ScansTo best rest (rest.foldl higher best) := by
  induction rest generalizing best with
  | nil => exact .ends best
  | cons p rest ih =>
    rw [List.foldl_cons]
    cases hlt : best.btc.lt p.btc with
    | true =>
      have hnext : higher best p = p := if_pos hlt
      rw [hnext]
      exact .moves hlt (ih p)
    | false =>
      have hkept : higher best p = best := if_neg (by simp [hlt])
      rw [hkept]
      exact .stays hlt (ih best)

/-! ## The shape -/

section Shape

variable {s out : Series} {years least peak : UInt32}

theorem Rises.head?_age (h : out.Rises) (hleast : IsLeastAge least out) :
    out.head?.map Sample.age = some least := by
  obtain ⟨⟨p, hp, rfl⟩, hle⟩ := hleast
  cases out with
  | nil => exact absurd hp (by simp)
  | cons q rest =>
    rcases List.mem_cons.mp hp with rfl | hrest
    · rfl
    · have hlt := (List.pairwise_cons.mp h).1 p hrest
      exact absurd (hle q (by simp)) (UInt32.not_le.mpr hlt)

theorem landed_ne_nil {age : Nat} :
    landed s years least peak age ≠ [] ↔ ∃ p ∈ s, landing least years p.age = age := by
  simp [landed]

theorem landing_least : landing least years least = least.toNat :=
  Nat.max_eq_left (Nat.sub_le _ _)

/-- Where samples land leaves the least age where it is. -/
theorem IsLeastAge.of_landing (hleast : IsLeastAge least s)
    (hages : ∀ age : Nat, (∃ q ∈ out, q.age.toNat = age) ↔
      ∃ p ∈ s, landing least years p.age = age) : IsLeastAge least out := by
  constructor
  · obtain ⟨p, hp, hage⟩ := hleast.1
    obtain ⟨q, hq, hlands⟩ := (hages least.toNat).mpr ⟨p, hp, by rw [hage, landing_least]⟩
    exact ⟨q, hq, UInt32.toNat_inj.mp hlands⟩
  · intro q hq
    obtain ⟨p, -, hlands⟩ := (hages q.age.toNat).mp ⟨q, hq, rfl⟩
    rw [UInt32.le_iff_toNat_le, ← hlands]
    exact Nat.le_max_left _ _

/-- What stands at each age makes a series that rises the one that is pulled earlier. -/
theorem isPulled_of_at? (hleast : IsLeastAge least s) (hrises : out.Rises)
    (hat : ∀ age, out.at? age = reduce? Value.max (landed s years least peak age.toNat)) :
    IsPulled s years least peak out := by
  have hages : ∀ age : Nat, (∃ q ∈ out, q.age.toNat = age) ↔
      ∃ p ∈ s, landing least years p.age = age := by
    intro age
    constructor
    · rintro ⟨q, hq, rfl⟩
      have hthere := exists_age_iff.mp ⟨q, hq, rfl⟩
      rw [hat, isSome_reduce?] at hthere
      exact landed_ne_nil.mp hthere
    · rintro ⟨p, hp, rfl⟩
      rw [← toNat_shiftedAge]
      have hlands : landed s years least peak (shiftedAge least years p.age).toNat ≠ [] :=
        landed_ne_nil.mpr ⟨p, hp, (toNat_shiftedAge least years p.age).symm⟩
      rw [← isSome_reduce? Value.max, ← hat] at hlands
      obtain ⟨q, hq, hage⟩ := exists_age_iff.mpr hlands
      exact ⟨q, hq, by rw [hage]⟩
  refine ⟨hrises, hages, hrises.head?_age (hleast.of_landing hages), ?_⟩
  intro q hq
  rw [← hat, hrises.mem_iff.mp hq]

theorem IsPulled.at? (h : IsPulled s years least peak out) (age : UInt32) :
    out.at? age = reduce? Value.max (landed s years least peak age.toNat) := by
  cases hthere : out.at? age with
  | some btc =>
    have hmem : { age := age, btc := btc } ∈ out := (Rises.mem_iff h.rises).mpr hthere
    exact (h.amounts _ hmem).symm
  | none =>
    have hnone : landed s years least peak age.toNat = [] := by
      refine Decidable.byContradiction fun hne => ?_
      obtain ⟨q, hq, hage⟩ := (h.ages age.toNat).mpr (landed_ne_nil.mp hne)
      have hsome := exists_age_iff.mp ⟨q, hq, UInt32.toNat_inj.mp hage⟩
      simp [hthere] at hsome
    rw [hnone]
    rfl

theorem IsPulled.unique {other : Series} (h : IsPulled s years least peak out)
    (hother : IsPulled s years least peak other) : out = other :=
  Rises.eq_of_at? h.rises hother.rises fun age => (h.at? age).trans (hother.at? age).symm

end Shape

theorem shift_of_ne_zero (first : Sample) (rest : Series) {years : UInt32} (h : years ≠ 0) :
    shift (first :: rest) years = (first :: rest).foldl (fun out p =>
      insertLargest (shiftedAge (leastAge first rest) years p.age)
        (shiftedBtc (peakAge first rest) years p) out) [] :=
  if_neg h

/-- The shift of a series is that series pulled earlier, from its least age on and with the peak
that a scan from its first sample finds. -/
theorem isPulled_shift (first : Sample) (rest : Series) {years : UInt32} (h : years ≠ 0) :
    IsPulled (first :: rest) years (leastAge first rest) (peakAge first rest)
      (shift (first :: rest) years) := by
  rw [shift_of_ne_zero first rest h]
  refine isPulled_of_at? (isLeastAge_leastAge first rest) (Rises.foldl _ _ .nil _) ?_
  intro age
  rw [at?_foldl _ _ .nil, at?, foldl_meet?_none, landed]
  simp only [← UInt32.toNat_inj, toNat_shiftedAge, shiftedBtc_eq_raised]

/-- **The shift of a series is the one series that is this series pulled earlier.** -/
theorem shift_eq_iff_isPulled (first : Sample) (rest : Series) {years : UInt32} (h : years ≠ 0) :
    ∃ least top, IsLeastAge least (first :: rest) ∧ ScansTo first rest top ∧
      ∀ out, shift (first :: rest) years = out ↔
        IsPulled (first :: rest) years least top.age out := by
  have hshift := isPulled_shift first rest h
  refine ⟨leastAge first rest, rest.foldl higher first, isLeastAge_leastAge first rest,
    scansTo_foldl_higher first rest, fun out => ⟨?_, hshift.unique⟩⟩
  rintro rfl
  exact hshift

/-- Samples out of order of which three meet at the least age, one of them not a number. -/
theorem shift_eq_iff_isPulled_of_three_meeting :
    let first : Sample := { age := 7, btc := Value.ofRatio binary32 false 1 2 }
    let rest : Series :=
      [{ age := 3, btc := .nan }, { age := 30, btc := Value.ofNat binary32 2 },
        { age := 3, btc := Value.ofNat binary32 2 }]
    (4 : UInt32) ≠ 0 ∧
      (∃ least top, IsLeastAge least (first :: rest) ∧ ScansTo first rest top ∧
        IsPulled (first :: rest) 4 least top.age (shift (first :: rest) 4)) ∧
          (shift (first :: rest) 4).map Sample.age = [3, 26] := by
  intro first rest
  have hyears : (4 : UInt32) ≠ 0 := by decide
  obtain ⟨least, top, hleast, htop, hshift⟩ := shift_eq_iff_isPulled first rest hyears
  exact ⟨hyears, ⟨least, top, hleast, htop, (hshift _).mp rfl⟩, by decide +kernel⟩

end Series
end RetirementVault.Projection
