import RetirementVault.Projection.Chart
import RetirementVault.Proofs.Binary.Order

/-!
# The extremes of a chart

A list is brought to its largest or its smallest value by taking one of two values at a time. What
comes out is a value of the list and no other value of the list goes beyond it, for the one reason
that each choice is among the two and not beaten by either (`Selects.reduce?`).

For binary values that holds among numbers only, infinities included: not-a-number is beaten by
everything and level with nothing.
-/

set_option autoImplicit false

namespace RetirementVault.Projection

open Binary

/-- A way to take one of two values, so that no value goes beyond what is taken. -/
structure Selects {α : Type} (f : α → α → α) (r : α → α → Prop) (good : α → Prop) : Prop where
  refl : ∀ a, good a → r a a
  trans : ∀ a b c, r a b → r b c → r a c
  either : ∀ a b, f a b = a ∨ f a b = b
  left : ∀ a b, good a → good b → r a (f a b)
  right : ∀ a b, good a → good b → r b (f a b)

section

variable {α : Type} {f : α → α → α} {r : α → α → Prop} {good : α → Prop}

theorem Selects.good_of_either (h : Selects f r good) {a b : α} (ha : good a) (hb : good b) :
    good (f a b) := by
  rcases h.either a b with hleft | hright
  · rwa [hleft]
  · rwa [hright]

theorem Selects.foldl (h : Selects f r good) {a : α} {l : List α} (hgood : ∀ b ∈ a :: l, good b) :
    l.foldl f a ∈ a :: l ∧ ∀ b ∈ a :: l, r b (l.foldl f a) := by
  -- The fold goes on from what was taken of the first two values, so the start has to vary.
  induction l generalizing a with
  | nil => simpa using h.refl a (hgood a (by simp))
  | cons b l ih =>
    have ha := hgood a (by simp)
    have hb := hgood b (by simp)
    have hgood' : ∀ c ∈ f a b :: l, good c := by
      intro c hc
      rcases List.mem_cons.mp hc with rfl | hc
      · exact h.good_of_either ha hb
      · exact hgood c (by simp [hc])
    obtain ⟨hmem, hbeyond⟩ := ih hgood'
    have htaken := hbeyond (f a b) (by simp)
    rw [List.foldl_cons]
    constructor
    · rcases List.mem_cons.mp hmem with heq | hmem
      · rw [heq]
        rcases h.either a b with hleft | hright
        · simp [hleft]
        · simp [hright]
      · simp [hmem]
    · intro c hc
      rcases List.mem_cons.mp hc with rfl | hc
      · exact h.trans _ _ _ (h.left _ _ ha hb) htaken
      · rcases List.mem_cons.mp hc with rfl | hc
        · exact h.trans _ _ _ (h.right _ _ ha hb) htaken
        · exact hbeyond c (by simp [hc])

theorem Selects.reduce? (h : Selects f r good) {l : List α} {a : α}
    (hreduce : Projection.reduce? f l = some a) (hgood : ∀ b ∈ l, good b) :
    a ∈ l ∧ ∀ b ∈ l, r b a := by
  cases l with
  | nil => exact absurd hreduce (by simp [Projection.reduce?])
  | cons first l =>
    obtain rfl := Option.some.inj hreduce
    exact h.foldl hgood

theorem isSome_reduce? (f : α → α → α) (l : List α) :
    (Projection.reduce? f l).isSome = true ↔ l ≠ [] := by
  cases l <;> simp [Projection.reduce?]

end

theorem selects_max :
    Selects (Value.max : Single → Single → Single) (fun a b => a.le b = true) (· ≠ .nan) where
  refl _ ha := Value.le_refl ha
  trans _ _ _ hab hbc := Value.le_trans hab hbc
  either := Value.max_eq_or
  left _ _ ha _ := Value.le_max_left ha
  right _ _ ha hb := Value.le_max_right ha hb

theorem selects_min :
    Selects (Value.min : Single → Single → Single) (fun a b => b.le a = true) (· ≠ .nan) where
  refl _ ha := Value.le_refl ha
  trans _ _ _ hab hbc := Value.le_trans hbc hab
  either := Value.min_eq_or
  left _ _ ha _ := Value.min_le_left ha
  right _ _ ha hb := Value.min_le_right ha hb

end RetirementVault.Projection
