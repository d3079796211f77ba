import RetirementVault.Proofs.Projection.Shape

/-!
# Pulling a curve earlier in steps

Two shifts move the ages as one shift by all the years does. The reason is that both have the same
least age to stop at, since a shift leaves it where it is; and an age that has stopped there stops
there again. What a shift makes of equal ages does not matter: the ages of a shifted series are a
set in order.

A shift by no years does not sort or merge anything. In two steps of which one is by no years that
one can be left out, and nothing has to be said about the ages it leaves.
-/

set_option autoImplicit false

namespace RetirementVault.Projection.Series

theorem shift_zero (s : Series) : s.shift 0 = s := by
  cases s with
  | nil => rfl
  | cons first rest => simp [shift]

theorem IsLeastAge.unique {s : Series} {least other : UInt32} (h : IsLeastAge least s)
    (hother : IsLeastAge other s) : least = other := by
  obtain ⟨⟨p, hp, rfl⟩, hle⟩ := h
  obtain ⟨⟨q, hq, rfl⟩, hle'⟩ := hother
  exact UInt32.le_antisymm (hle q hq) (hle' p hp)

/-- Series that rise have the same list of ages if they have the same ages. -/
theorem Rises.ages_eq {s t : Series} (hs : s.Rises) (ht : t.Rises)
    (h : ∀ age : Nat, (∃ p ∈ s, p.age.toNat = age) ↔ ∃ p ∈ t, p.age.toNat = age) :
    s.map Sample.age = t.map Sample.age := by
  refine List.Pairwise.eq_of_mem_iff (List.pairwise_map.mpr hs) (List.pairwise_map.mpr ht) ?_
  intro age
  have hage := h age.toNat
  simp only [UInt32.toNat_inj] at hage
  simpa only [List.mem_map] using hage

section

variable {years years' : UInt32}

theorem toNat_add_years (h : years.toNat + years'.toNat < UInt32.size) :
    (years + years').toNat = years.toNat + years'.toNat := by
  rw [UInt32.toNat_add]
  exact Nat.mod_eq_of_lt h

theorem add_ne_zero (hyears : years ≠ 0) (h : years.toNat + years'.toNat < UInt32.size) :
    years + years' ≠ 0 := by
  have hpos : years.toNat ≠ 0 := fun hzero => hyears (UInt32.toNat_inj.mp hzero)
  intro hsum
  have hzero := toNat_add_years h
  rw [hsum] at hzero
  exact hpos (Nat.eq_zero_of_add_eq_zero_right hzero.symm)

/-- Landing in two steps is landing in one. -/
theorem landing_landing {least age landed : UInt32}
    (hlands : landing least years age = landed.toNat)
    (h : years.toNat + years'.toNat < UInt32.size) :
    landing least years' landed = landing least (years + years') age := by
  have hyears := toNat_add_years h
  unfold landing at *
  omega

end

/-- A series pulled earlier twice has the ages of the one pulled earlier by all the years. -/
theorem IsPulled.ages_pulled {s between twice once : Series} {years years' least : UInt32}
    {peak peak' peak'' : UInt32} (hstep : IsPulled s years least peak between)
    (htwice : IsPulled between years' least peak' twice)
    (honce : IsPulled s (years + years') least peak'' once)
    (h : years.toNat + years'.toNat < UInt32.size) :
    twice.map Sample.age = once.map Sample.age := by
  -- Both series rise, whatever met on the way, so it is enough that their ages are the same set.
  refine Rises.ages_eq htwice.rises honce.rises ?_
  intro age
  rw [htwice.ages, honce.ages]
  constructor
  · rintro ⟨p, hp, rfl⟩
    obtain ⟨r, hr, hlands⟩ := (hstep.ages p.age.toNat).mp ⟨p, hp, rfl⟩
    exact ⟨r, hr, (landing_landing hlands h).symm⟩
  · rintro ⟨r, hr, rfl⟩
    obtain ⟨p, hp, hlands⟩ := (hstep.ages (landing least years r.age)).mpr ⟨r, hr, rfl⟩
    exact ⟨p, hp, landing_landing hlands.symm h⟩

/-- **Shifting in steps moves the ages as shifting once.** -/
theorem ages_shift_shift (s : Series) {years years' : UInt32}
    (h : years.toNat + years'.toNat < UInt32.size) :
    ((s.shift years).shift years').map Sample.age = (s.shift (years + years')).map Sample.age := by
  by_cases hyears : years = 0
  · rw [hyears, shift_zero, UInt32.zero_add]
  by_cases hyears' : years' = 0
  · rw [hyears', shift_zero, UInt32.add_zero]
  cases s with
  | nil => rfl
  | cons first rest =>
    have honce := isPulled_shift first rest (add_ne_zero hyears h)
    have hstep := isPulled_shift first rest hyears
    have hleast := (isLeastAge_leastAge first rest).of_landing hstep.ages
    cases hout : shift (first :: rest) years with
    | nil =>
      obtain ⟨p, hp, -⟩ := hleast.1
      exact absurd (hout ▸ hp) List.not_mem_nil
    | cons q others =>
      rw [hout] at hstep hleast
      have htwice := isPulled_shift q others hyears'
      rw [(isLeastAge_leastAge q others).unique hleast] at htwice
      exact hstep.ages_pulled htwice honce h

/-- All the years there are, in two steps, and the least age twice. -/
theorem ages_shift_shift_of_all_years :
    let s : Series :=
      [{ age := 7, btc := .nan }, { age := 3, btc := .nan }, { age := 4294967295, btc := .nan },
        { age := 3, btc := .nan }]
    (4294967285 : UInt32).toNat + (10 : UInt32).toNat < UInt32.size ∧
      ((s.shift 4294967285).shift 10).map Sample.age
        = (s.shift (4294967285 + 10)).map Sample.age ∧
      (s.shift 4294967285).map Sample.age = [3, 10] := by
  intro s
  have hyears : (4294967285 : UInt32).toNat + (10 : UInt32).toNat < UInt32.size := by decide
  exact ⟨hyears, ages_shift_shift s hyears, by decide +kernel⟩

end RetirementVault.Projection.Series
