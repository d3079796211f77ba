import RetirementVault.Proofs.Projection.Drawing
import RetirementVault.Proofs.Projection.Extremes

/-!
# The age axis of a chart

The bounds of the age axis are taken from the two ends of each curve only. They hold all the points
because no curve runs back (`Curve.Runs`): a series is drawn in order of age, a greater age is not
rounded to an earlier place, and a curve that continues from an anchor has lost the points before
it. Both bounds are places where there is a point, so the axis is no longer than it has to be.
-/

set_option autoImplicit false

namespace RetirementVault.Projection

open Binary

/-! ## Curves that do not run back -/

/-- A curve along the axis, with no point behind one that lies further on. -/
structure Curve.Runs (c : Curve) : Prop where
  numbers : ∀ p ∈ c, p.x ≠ .nan
  rises : c.Pairwise fun p q => p.x.le q.x = true

theorem Curve.Runs.first_le {c : Curve} (h : c.Runs) {first p : Point}
    (hfirst : c.head? = some first) (hp : p ∈ c) : first.x.le p.x = true := by
  obtain ⟨rest, rfl⟩ := List.head?_eq_some_iff.mp hfirst
  rcases List.mem_cons.mp hp with rfl | hrest
  · exact Value.le_refl (h.numbers p hp)
  · exact (List.pairwise_cons.mp h.rises).1 p hrest

theorem Curve.Runs.le_last {c : Curve} (h : c.Runs) {last p : Point}
    (hlast : c.getLast? = some last) (hp : p ∈ c) : p.x.le last.x = true := by
  obtain ⟨before, rfl⟩ := List.getLast?_eq_some_iff.mp hlast
  rcases List.mem_append.mp hp with hbefore | hend
  · exact (List.pairwise_append.mp h.rises).2.2 p hbefore last (by simp)
  · obtain rfl := List.mem_singleton.mp hend
    exact Value.le_refl (h.numbers p hp)

theorem Sample.x_point (p : Sample) : p.point.x = Value.ofNat binary32 p.age.toNat := by
  rw [Sample.point]

theorem Sample.x_point_ne_nan (p : Sample) : p.point.x ≠ .nan := by
  rw [p.x_point]
  exact Value.ofNat_ne_nan p.age.toNat

theorem Sample.x_point_le {p q : Sample} (h : p.age ≤ q.age) : p.point.x.le q.point.x = true := by
  rw [p.x_point, q.x_point]
  exact Value.ofNat_le_ofNat (UInt32.le_iff_toNat_le.mp h)

theorem Series.DrawnAs.runs {s : Series} {c : Curve} (h : s.DrawnAs c) : c.Runs := by
  constructor
  · intro q hq
    obtain ⟨p, -, rfl⟩ := h.mem_iff.mp hq
    exact p.x_point_ne_nan
  · obtain ⟨out, hsorts, rfl⟩ := h
    exact List.pairwise_map.mpr (hsorts.ordered.imp Sample.x_point_le)

theorem Series.ContinuedAs.runs {s : Series} {last : Sample} {c : Curve}
    (h : s.ContinuedAs last.point c) : c.Runs := by
  obtain ⟨rest, hrest, rfl⟩ := h
  constructor
  · intro q hq
    rcases List.mem_cons.mp hq with rfl | hq
    · exact last.x_point_ne_nan
    · exact hrest.runs.numbers q hq
  · refine List.pairwise_cons.mpr ⟨?_, hrest.runs.rises⟩
    intro q hq
    obtain ⟨p, hp, rfl⟩ := hrest.mem_iff.mp hq
    exact (List.mem_filter.mp hp).2

theorem Plan.Draws.runs {p : Plan} {adjustment : Int} {last : Sample} {c : Curves}
    (h : p.Draws adjustment last c) {s : Curve} (hs : s ∈ c.all) : s.Runs := by
  rcases h.shows hs with ⟨t, -, hdrawn⟩ | ⟨t, -, hcontinued⟩
  · exact hdrawn.runs
  · exact hcontinued.runs

/-! ## The bounds -/

namespace Curves

variable {c : Curves} {b : Bounds}

theorem bounds_eq_some_iff :
    c.bounds = some b ↔
      reduce? Value.min (c.all.filterMap fun s => s.head?.map Point.x) = some b.minAge ∧
      reduce? Value.max (c.all.filterMap fun s => s.getLast?.map Point.x) = some b.maxAge ∧
      ∃ top, reduce? Value.max (c.all.flatten.map Point.y) = some top ∧
        b.maxBtc = top * headroom := by
  unfold bounds
  simp only [Option.bind_eq_bind, Option.bind_eq_some_iff, Option.pure_def, Option.some.injEq]
  constructor
  · rintro ⟨first, hfirst, last, hlast, top, htop, rfl⟩
    exact ⟨hfirst, hlast, top, htop, rfl⟩
  · rintro ⟨hfirst, hlast, top, htop, hmax⟩
    exact ⟨_, hfirst, _, hlast, top, htop, by rw [← hmax]⟩

theorem mem_ends {f : Curve → Option Point} {x : Single} :
    x ∈ c.all.filterMap (fun s => (f s).map Point.x) ↔
      ∃ s ∈ c.all, ∃ p, f s = some p ∧ p.x = x := by
  simp only [List.mem_filterMap, Option.map_eq_some_iff]

theorem mem_amounts {y : Single} :
    y ∈ c.all.flatten.map Point.y ↔ ∃ s ∈ c.all, ∃ q ∈ s, q.y = y := by
  rw [List.mem_map]
  constructor
  · rintro ⟨q, hq, rfl⟩
    obtain ⟨s, hs, hq⟩ := List.mem_flatten.mp hq
    exact ⟨s, hs, q, hq, rfl⟩
  · rintro ⟨s, hs, q, hq, rfl⟩
    exact ⟨q, List.mem_flatten.mpr ⟨s, hs, hq⟩, rfl⟩

/-- Where there is a point there are bounds. -/
theorem exists_bounds {s : Curve} (hs : s ∈ c.all) (hne : s ≠ []) : ∃ b, c.bounds = some b := by
  obtain ⟨first, rest, rfl⟩ := List.exists_cons_of_ne_nil hne
  have hlast := List.getLast?_eq_some_getLast hne
  have hfirsts := List.ne_nil_of_mem ((mem_ends (f := List.head?)).mpr ⟨_, hs, first, rfl, rfl⟩)
  have hlasts := List.ne_nil_of_mem ((mem_ends (f := List.getLast?)).mpr ⟨_, hs, _, hlast, rfl⟩)
  have hamounts := List.ne_nil_of_mem (mem_amounts.mpr ⟨_, hs, first, List.mem_cons_self, rfl⟩)
  obtain ⟨minAge, hmin⟩ :=
    Option.isSome_iff_exists.mp ((isSome_reduce? Value.min _).mpr hfirsts)
  obtain ⟨maxAge, hmax⟩ :=
    Option.isSome_iff_exists.mp ((isSome_reduce? Value.max _).mpr hlasts)
  obtain ⟨top, htop⟩ :=
    Option.isSome_iff_exists.mp ((isSome_reduce? Value.max _).mpr hamounts)
  exact ⟨{ minAge, maxAge, maxBtc := top * headroom },
    bounds_eq_some_iff.mpr ⟨hmin, hmax, top, htop, rfl⟩⟩

end Curves

/-- Bounds between which all points of a chart lie, and which two of them are on. -/
structure Bounds.SpansAges (b : Bounds) (c : Curves) : Prop where
  within : ∀ s ∈ c.all, ∀ p ∈ s, b.minAge.le p.x = true ∧ p.x.le b.maxAge = true
  starts : ∃ s ∈ c.all, ∃ p ∈ s, p.x = b.minAge
  ends : ∃ s ∈ c.all, ∃ p ∈ s, p.x = b.maxAge

/-- **The ends of curves that do not run back bound all their points.** -/
theorem Curves.spansAges_of_runs {c : Curves} {b : Bounds} (hruns : ∀ s ∈ c.all, s.Runs)
    (hb : c.bounds = some b) : b.SpansAges c := by
  obtain ⟨hmin, hmax, -⟩ := bounds_eq_some_iff.mp hb
  have hfirsts : ∀ x ∈ c.all.filterMap (fun s => s.head?.map Point.x), x ≠ .nan := by
    intro x hx
    obtain ⟨s, hs, p, hp, rfl⟩ := mem_ends.mp hx
    exact (hruns s hs).numbers p (List.mem_of_head? hp)
  have hlasts : ∀ x ∈ c.all.filterMap (fun s => s.getLast?.map Point.x), x ≠ .nan := by
    intro x hx
    obtain ⟨s, hs, p, hp, rfl⟩ := mem_ends.mp hx
    exact (hruns s hs).numbers p (List.mem_of_getLast? hp)
  obtain ⟨hleast, hbefore⟩ := selects_min.reduce? hmin hfirsts
  obtain ⟨hgreatest, hafter⟩ := selects_max.reduce? hmax hlasts
  constructor
  · intro s hs p hp
    have hne := List.ne_nil_of_mem hp
    have hfirst := List.head?_eq_some_head hne
    have hlast := List.getLast?_eq_some_getLast hne
    exact ⟨Value.le_trans (hbefore _ (mem_ends.mpr ⟨s, hs, _, hfirst, rfl⟩))
        ((hruns s hs).first_le hfirst hp),
      Value.le_trans ((hruns s hs).le_last hlast hp)
        (hafter _ (mem_ends.mpr ⟨s, hs, _, hlast, rfl⟩))⟩
  · obtain ⟨s, hs, p, hp, hx⟩ := mem_ends.mp hleast
    exact ⟨s, hs, p, List.mem_of_head? hp, hx⟩
  · obtain ⟨s, hs, p, hp, hx⟩ := mem_ends.mp hgreatest
    exact ⟨s, hs, p, List.mem_of_getLast? hp, hx⟩

/-! ## The chart of a plan -/

namespace Plan

theorem Draws.getLast?_investment {p : Plan} {adjustment : Int} {last : Sample} {c : Curves}
    (h : p.Draws adjustment last c) (hlast : p.history.IsLatest last) :
    c.investment.getLast? = some last.point := by
  rw [Series.drawnAs_iff.mp h.investment]
  exact Series.getLast?_curve.mpr ⟨last, hlast, rfl⟩

theorem Draws.exists_bounds {p : Plan} {adjustment : Int} {last : Sample} {c : Curves}
    (h : p.Draws adjustment last c) : ∃ b, c.bounds = some b := by
  have hactual : c.actual ∈ c.all := Curves.mem_all.mpr (.inr (.inl rfl))
  obtain ⟨rest, -, hcons⟩ := h.actual
  exact Curves.exists_bounds hactual (by simp [hcons])

/-- **A chart is drawn in order of age, and its age axis holds it.** There is a chart exactly if
there is a history, and it is the one that is drawn of the plan; of an adjustment only the sign
matters. No curve of it runs back. The anchor is the last point of the history, and the bounds of
the age axis are the ages of two points between which all others lie. -/
theorem chart_runs_between_its_bounds (p : Plan) (adjustment : Int) :
    (p.curves adjustment = none ↔ p.history = []) ∧
    (∀ other : Int, other.sign = adjustment.sign → p.curves other = p.curves adjustment) ∧
    (∀ c, p.curves adjustment = some c ↔
      ∃ last, p.history.IsLatest last ∧ c.investment.getLast? = some last.point ∧
        p.Draws adjustment last c) ∧
    ∀ c, p.curves adjustment = some c →
      (∀ s ∈ c.all, s.Pairwise fun q r => q.x.le r.x = true) ∧
        ∃ b, c.bounds = some b ∧ b.SpansAges c := by
  refine ⟨curves_eq_none_iff, fun _ => curves_congr, fun c => ?_, fun c hc => ?_⟩
  · rw [curves_eq_some_iff]
    constructor
    · rintro ⟨last, hlast, hdraws⟩
      exact ⟨last, hlast, hdraws.getLast?_investment hlast, hdraws⟩
    · rintro ⟨last, hlast, -, hdraws⟩
      exact ⟨last, hlast, hdraws⟩
  · obtain ⟨last, -, hdraws⟩ := curves_eq_some_iff.mp hc
    obtain ⟨b, hb⟩ := hdraws.exists_bounds
    have hruns : ∀ s ∈ c.all, s.Runs := fun s => hdraws.runs
    exact ⟨fun s hs => (hruns s hs).rises, b, hb, Curves.spansAges_of_runs hruns hb⟩

/-- A history out of order whose two latest samples are tied, and an expected sample that is a year
younger than the anchor but falls on the same place of the axis. -/
theorem chart_runs_between_its_bounds_at_a_tie :
    let one : Single := Value.ofNat binary32 1
    let two : Single := Value.ofNat binary32 2
    let younger : Sample := { age := 16777216, btc := two }
    let latest : Sample := { age := 16777217, btc := one }
    let p : Plan :=
      { currentAge := 30, lifeExpectancy := 90, base := []
        expected := [{ age := 5, btc := one }, younger]
        added := [], removed := [{ age := 7, btc := one }]
        history := [{ age := 16777217, btc := two }, { age := 4, btc := two }, latest] }
    ∃ c b, p.curves (-7) = some c ∧ p.curves (-8) = some c ∧
      c.investment.getLast? = some latest.point ∧ younger.point ∈ c.actual ∧
      c.bounds = some b ∧ b.SpansAges c := by
  intro one two younger latest p
  have hhistory : p.history ≠ [] := by decide
  have hlatest : p.history.IsLatest latest := by decide +kernel
  have hyounger : younger ∈ p.expected.filter fun q => latest.point.x.le q.point.x := by
    decide +kernel
  obtain ⟨hnone, hsign, hdrawn, hruns⟩ := chart_runs_between_its_bounds p (-7)
  obtain ⟨c, hc⟩ := Option.ne_none_iff_exists'.mp fun h => hhistory (hnone.mp h)
  obtain ⟨last, hlast, hanchor, hdraws⟩ := (hdrawn c).mp hc
  obtain ⟨-, b, hb, hspans⟩ := hruns c hc
  obtain rfl := hlast.unique hlatest
  obtain ⟨rest, hrest, hactual⟩ := hdraws.actual
  have hmem := hrest.mem_iff.mpr ⟨younger, hyounger, rfl⟩
  refine ⟨c, b, hc, (hsign (-8) rfl).trans hc, hanchor, ?_, hb, hspans⟩
  rw [hactual]
  exact List.mem_cons_of_mem _ hmem

end Plan
end RetirementVault.Projection
