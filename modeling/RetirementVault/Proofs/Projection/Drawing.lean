import RetirementVault.Projection.Chart
import RetirementVault.Proofs.Sorting

/-!
# What is drawn of a plan

A series is drawn as its points in order of age, those of one age as they stood (`Series.DrawnAs`).
A curve that continues from an anchor is the anchor and what is drawn of the samples that are not
before it (`Series.ContinuedAs`). The anchor is the last point of the history: of the samples with
the greatest age the one that came in last (`Series.IsLatest`).

With these words the chart of a plan is described in full, and there is one chart for a plan and an
adjustment (`Plan.curves_eq_some_iff`). Nothing is used about the amounts, nor about how an age is
rounded to a point of the axis: two ages may well fall on one point, and a sample of a lesser age
than the anchor's may be drawn after it.
-/

set_option autoImplicit false

namespace RetirementVault.Projection

open Binary

namespace Series

/-- A list of samples is another one in order of age. -/
abbrev Sorts (s out : Series) : Prop :=
  SortsBy Sample.age (fun a b => a ≤ b) s out

theorem sorts_sorted (s : Series) : Sorts s s.sorted :=
  sortsBy_mergeSort Sample.age (fun a b => a ≤ b) (fun _ _ => decide_eq_true_iff) UInt32.le_refl
    (fun _ _ _ => UInt32.le_trans) UInt32.le_total s

theorem Sorts.eq_sorted {s out : Series} (h : Sorts s out) : out = s.sorted :=
  h.unique (sorts_sorted s) UInt32.le_refl fun _ _ => UInt32.le_antisymm

/-- What a series looks like on a chart. -/
def DrawnAs (s : Series) (c : Curve) : Prop :=
  ∃ out, Sorts s out ∧ c = out.map Sample.point

/-- What a series looks like from an anchor on. -/
def ContinuedAs (s : Series) (anchor : Point) (c : Curve) : Prop :=
  ∃ rest, DrawnAs (s.filter fun p => anchor.x.le p.point.x) rest ∧ c = anchor :: rest

/-- The sample that comes last in order of age. -/
def IsLatest (s : Series) (last : Sample) : Prop :=
  (∀ p ∈ s, p.age ≤ last.age) ∧ (s.filter fun p => p.age = last.age).getLast? = some last

instance (s : Series) (last : Sample) : Decidable (s.IsLatest last) :=
  inferInstanceAs (Decidable (_ ∧ _))

theorem drawnAs_iff {s : Series} {c : Curve} : s.DrawnAs c ↔ c = s.curve := by
  constructor
  · rintro ⟨out, hsorts, rfl⟩
    rw [hsorts.eq_sorted]
    rfl
  · rintro rfl
    exact ⟨s.sorted, sorts_sorted s, rfl⟩

theorem continuedAs_iff {s : Series} {anchor : Point} {c : Curve} :
    s.ContinuedAs anchor c ↔ c = s.curve.continueFrom anchor := by
  -- Samples may be left out before the sort or points after it.
  have hpart : curve (s.filter fun p => anchor.x.le p.point.x)
      = s.curve.filter fun p => anchor.x.le p.x := by
    have hsorts : Sorts (s.filter fun p => anchor.x.le p.point.x)
        (s.sorted.filter fun p => anchor.x.le p.point.x) := (sorts_sorted s).filter _
    rw [curve, curve, ← hsorts.eq_sorted, List.filter_map]
    rfl
  constructor
  · rintro ⟨rest, hrest, rfl⟩
    rw [drawnAs_iff.mp hrest, hpart]
    rfl
  · rintro rfl
    exact ⟨_, drawnAs_iff.mpr rfl, by rw [hpart]; rfl⟩

theorem DrawnAs.mem_iff {s : Series} {c : Curve} (h : s.DrawnAs c) {q : Point} :
    q ∈ c ↔ ∃ p ∈ s, p.point = q := by
  obtain ⟨out, hsorts, rfl⟩ := h
  rw [List.mem_map]
  simp only [hsorts.mem_iff]

/-! ## The latest sample -/

theorem IsLatest.mem {s : Series} {last : Sample} (h : s.IsLatest last) : last ∈ s :=
  (List.mem_filter.mp (List.mem_of_getLast? h.2)).1

theorem IsLatest.unique {s : Series} {last other : Sample} (h : s.IsLatest last)
    (hother : s.IsLatest other) : last = other := by
  have hage : last.age = other.age :=
    UInt32.le_antisymm (hother.1 last h.mem) (h.1 other hother.mem)
  have hlast := h.2
  rw [hage, hother.2] at hlast
  exact (Option.some.inj hlast).symm

theorem isLatest_of_getLast? {s out : Series} (hsorts : Sorts s out) {last : Sample}
    (h : out.getLast? = some last) : s.IsLatest last := by
  obtain ⟨before, rfl⟩ := List.getLast?_eq_some_iff.mp h
  constructor
  · intro p hp
    rcases List.mem_append.mp (hsorts.mem_iff.mpr hp) with hbefore | hlast
    · exact (List.pairwise_append.mp hsorts.ordered).2.2 p hbefore last (by simp)
    · rw [List.mem_singleton.mp hlast]
      exact UInt32.le_refl _
  · rw [← hsorts.tied, List.filter_append]
    simp

theorem getLast?_sorted {s : Series} {last : Sample} :
    s.sorted.getLast? = some last ↔ s.IsLatest last := by
  refine ⟨isLatest_of_getLast? (sorts_sorted s), fun h => ?_⟩
  cases hlast : s.sorted.getLast? with
  | none =>
    have hempty := List.getLast?_eq_none_iff.mp hlast
    have hmem := (sorts_sorted s).mem_iff.mpr h.mem
    exact absurd hmem (by simp [hempty])
  | some other => rw [h.unique (isLatest_of_getLast? (sorts_sorted s) hlast)]

theorem getLast?_curve {s : Series} {anchor : Point} :
    s.curve.getLast? = some anchor ↔ ∃ last, s.IsLatest last ∧ last.point = anchor := by
  rw [curve, List.getLast?_map, Option.map_eq_some_iff]
  simp only [getLast?_sorted]

end Series

/-! ## The chart -/

theorem Curves.mem_all {c : Curves} {s : Curve} :
    s ∈ c.all ↔ s = c.base ∨ s = c.actual ∨ s = c.investment ∨ c.simulation = some s := by
  simp [Curves.all]

namespace Plan

def series (p : Plan) : List Series :=
  [p.base, p.expected, p.added, p.removed, p.history]

/-- What makes curves the chart of a plan under an adjustment, with the last sample of the history
as the anchor. -/
structure Draws (p : Plan) (adjustment : Int) (last : Sample) (c : Curves) : Prop where
  base : p.base.DrawnAs c.base
  investment : p.history.DrawnAs c.investment
  actual : p.expected.ContinuedAs last.point c.actual
  added : 0 < adjustment → ∃ s, c.simulation = some s ∧ p.added.ContinuedAs last.point s
  removed : adjustment < 0 → ∃ s, c.simulation = some s ∧ p.removed.ContinuedAs last.point s
  unchanged : adjustment = 0 → c.simulation = none

variable {p : Plan} {adjustment : Int}

theorem simulation_eq_iff {anchor : Point} {simulation : Option Curve} :
    (p.simulated adjustment).map (fun s => s.curve.continueFrom anchor) = simulation ↔
      (0 < adjustment → ∃ s, simulation = some s ∧ p.added.ContinuedAs anchor s) ∧
      (adjustment < 0 → ∃ s, simulation = some s ∧ p.removed.ContinuedAs anchor s) ∧
      (adjustment = 0 → simulation = none) := by
  simp only [Series.continuedAs_iff]
  unfold simulated
  rcases Int.lt_trichotomy adjustment 0 with hneg | rfl | hpos
  · have hpos : ¬ 0 < adjustment := by omega
    have hzero : adjustment ≠ 0 := by omega
    simp [hneg, hpos, hzero, eq_comm]
  · simp [eq_comm]
  · have hneg : ¬ adjustment < 0 := by omega
    have hzero : adjustment ≠ 0 := by omega
    simp [hneg, hpos, hzero, eq_comm]

/-- Every curve of a chart shows a series of the plan, as a whole or from the anchor on. -/
theorem Draws.shows {last : Sample} {c : Curves} (h : p.Draws adjustment last c) {s : Curve}
    (hs : s ∈ c.all) :
    (∃ t ∈ p.series, t.DrawnAs s) ∨ ∃ t ∈ p.series, t.ContinuedAs last.point s := by
  rcases Curves.mem_all.mp hs with rfl | rfl | rfl | hsimulation
  · exact .inl ⟨p.base, by simp [series], h.base⟩
  · exact .inr ⟨p.expected, by simp [series], h.actual⟩
  · exact .inl ⟨p.history, by simp [series], h.investment⟩
  · right
    rcases Int.lt_trichotomy adjustment 0 with hneg | hzero | hpos
    · obtain ⟨t, ht, hcontinued⟩ := h.removed hneg
      obtain rfl := Option.some.inj (ht.symm.trans hsimulation)
      exact ⟨p.removed, by simp [series], hcontinued⟩
    · exact absurd (hsimulation.symm.trans (h.unchanged hzero)) (by simp)
    · obtain ⟨t, ht, hcontinued⟩ := h.added hpos
      obtain rfl := Option.some.inj (ht.symm.trans hsimulation)
      exact ⟨p.added, by simp [series], hcontinued⟩

/-- Every point of a chart is that of a sample. -/
theorem Draws.exists_sample {last : Sample} {c : Curves} (h : p.Draws adjustment last c)
    (hlast : p.history.IsLatest last) {s : Curve} (hs : s ∈ c.all) {q : Point} (hq : q ∈ s) :
    ∃ t ∈ p.series, ∃ r ∈ t, r.point = q := by
  rcases h.shows hs with ⟨t, ht, hdrawn⟩ | ⟨t, ht, rest, hrest, rfl⟩
  · exact ⟨t, ht, hdrawn.mem_iff.mp hq⟩
  · rcases List.mem_cons.mp hq with rfl | hq
    · exact ⟨p.history, by simp [series], last, hlast.mem, rfl⟩
    · obtain ⟨r, hr, hpoint⟩ := hrest.mem_iff.mp hq
      exact ⟨t, ht, r, (List.mem_filter.mp hr).1, hpoint⟩

/-- **A plan with a history has one chart, the one that is drawn of it.** -/
theorem curves_eq_some_iff {c : Curves} :
    p.curves adjustment = some c ↔
      ∃ last, p.history.IsLatest last ∧ p.Draws adjustment last c := by
  unfold curves
  rw [Option.map_eq_some_iff]
  constructor
  · rintro ⟨anchor, hanchor, rfl⟩
    obtain ⟨last, hlatest, rfl⟩ := Series.getLast?_curve.mp hanchor
    obtain ⟨hadded, hremoved, hunchanged⟩ := (@simulation_eq_iff p adjustment last.point _).mp rfl
    refine ⟨last, hlatest, ?_⟩
    exact { base := Series.drawnAs_iff.mpr rfl
            investment := Series.drawnAs_iff.mpr rfl
            actual := Series.continuedAs_iff.mpr rfl
            added := hadded
            removed := hremoved
            unchanged := hunchanged }
  · rintro ⟨last, hlatest, hdraws⟩
    refine ⟨last.point, Series.getLast?_curve.mpr ⟨last, hlatest, rfl⟩, ?_⟩
    rw [simulation_eq_iff.mpr ⟨hdraws.added, hdraws.removed, hdraws.unchanged⟩,
      ← Series.drawnAs_iff.mp hdraws.base, ← Series.drawnAs_iff.mp hdraws.investment,
      ← Series.continuedAs_iff.mp hdraws.actual]

theorem curves_eq_none_iff : p.curves adjustment = none ↔ p.history = [] := by
  rw [curves, Option.map_eq_none_iff, List.getLast?_eq_none_iff, Series.curve, List.map_eq_nil_iff,
    List.eq_nil_iff_forall_not_mem, List.eq_nil_iff_forall_not_mem]
  simp only [(Series.sorts_sorted p.history).mem_iff]

/-- A chart does not show how large an adjustment is. -/
theorem curves_congr {other : Int} (h : other.sign = adjustment.sign) :
    p.curves other = p.curves adjustment := by
  have hpos : 0 < other ↔ 0 < adjustment := by
    rw [← Int.sign_eq_one_iff_pos, ← Int.sign_eq_one_iff_pos, h]
  have hneg : other < 0 ↔ adjustment < 0 := by
    rw [← Int.sign_eq_neg_one_iff_neg, ← Int.sign_eq_neg_one_iff_neg, h]
  unfold curves simulated
  simp only [hpos, hneg]

end Plan
end RetirementVault.Projection
