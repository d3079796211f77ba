/-!
# Sorting by a key

Entries of a statement are put in order of their dates and samples of a series in order of their
ages. Both sorts look at nothing but the key, and both leave those with the same key as they stood.
`SortsBy` says so without naming a way to sort. There is one list like that (`SortsBy.unique`), and
the merge sort of the library makes it (`sortsBy_mergeSort`).
-/

set_option autoImplicit false

namespace RetirementVault

/-- Sorting keeps the order of those that may stand either way round. -/
theorem filter_mergeSort {α : Type} {le : α → α → Bool}
    (trans : ∀ a b c, le a b = true → le b c = true → le a c = true)
    (total : ∀ a b, (le a b || le b a) = true) {p : α → Bool}
    (htied : ∀ a b, p a = true → p b = true → le a b = true) (l : List α) :
    (l.mergeSort le).filter p = l.filter p := by
  have hpairwise : (l.filter p).Pairwise fun a b => le a b = true :=
    List.pairwise_of_forall_mem_list fun _ ha _ hb =>
      htied _ _ (List.mem_filter.mp ha).2 (List.mem_filter.mp hb).2
  have hsublist : (l.filter p).Sublist (l.mergeSort le) :=
    List.sublist_mergeSort trans total hpairwise List.filter_sublist
  have hkept : (l.filter p).Sublist ((l.mergeSort le).filter p) := by
    have hfiltered := hsublist.filter p
    rwa [List.filter_filter, show (fun a => p a && p a) = p from funext fun a => Bool.and_self _]
      at hfiltered
  have hlength := ((List.mergeSort_perm l le).filter p).length_eq
  exact (hkept.eq_of_length hlength.symm).symm

section

variable {α κ : Type} [DecidableEq κ]

/-- What makes a list another one sorted by a key. -/
structure SortsBy (key : α → κ) (r : κ → κ → Prop) (l out : List α) : Prop where
  /-- The keys stand in order. -/
  ordered : out.Pairwise fun a b => r (key a) (key b)
  /-- Those with one key are all there, in the order they had. -/
  tied : ∀ k, (out.filter fun a => key a = k) = l.filter fun a => key a = k

variable {key : α → κ} {r : κ → κ → Prop} {l out : List α}

theorem sortsBy_mergeSort (key : α → κ) (r : κ → κ → Prop) {le : α → α → Bool}
    (hle : ∀ a b, le a b = true ↔ r (key a) (key b))
    (refl : ∀ k, r k k) (trans : ∀ k m n, r k m → r m n → r k n) (total : ∀ k m, r k m ∨ r m k)
    (l : List α) : SortsBy key r l (l.mergeSort le) := by
  have htrans : ∀ a b c, le a b = true → le b c = true → le a c = true := by
    intro a b c hab hbc
    exact (hle a c).mpr (trans _ _ _ ((hle a b).mp hab) ((hle b c).mp hbc))
  have htotal : ∀ a b, (le a b || le b a) = true := by
    intro a b
    rw [Bool.or_eq_true, hle, hle]
    exact total _ _
  constructor
  · exact (List.pairwise_mergeSort htrans htotal l).imp (hle _ _).mp
  · intro k
    refine filter_mergeSort htrans htotal (fun a b ha hb => ?_) l
    rw [hle, of_decide_eq_true ha, of_decide_eq_true hb]
    exact refl k

namespace SortsBy

theorem mem_iff (h : SortsBy key r l out) {a : α} : a ∈ out ↔ a ∈ l := by
  have htied := congrArg (a ∈ ·) (h.tied (key a))
  simpa using htied

/-- A part of what is sorted is the part, sorted. -/
theorem filter (h : SortsBy key r l out) (p : α → Bool) :
    SortsBy key r (l.filter p) (out.filter p) := by
  have hcomm : ∀ (k : κ) (m : List α), ((m.filter p).filter fun a => key a = k)
      = (m.filter fun a => key a = k).filter p := by
    intro k m
    simp only [List.filter_filter, Bool.and_comm]
  refine ⟨h.ordered.filter p, fun k => ?_⟩
  rw [hcomm, h.tied, hcomm]

theorem rel_head {a b : α} (h : SortsBy key r l (a :: out)) (refl : ∀ k, r k k)
    (hb : b ∈ a :: out) : r (key a) (key b) := by
  rcases List.mem_cons.mp hb with rfl | hrest
  · exact refl _
  · exact (List.pairwise_cons.mp h.ordered).1 b hrest

theorem filter_cons_eq (a : α) (l : List α) (k : κ) :
    ((a :: l).filter fun b => key b = k)
      = if key a = k then a :: l.filter fun b => key b = k else l.filter fun b => key b = k := by
  simp only [List.filter_cons, decide_eq_true_iff]

/-- **There is one way to sort.** -/
theorem unique {other : List α} (h : SortsBy key r l out) (hother : SortsBy key r l other)
    (refl : ∀ k, r k k) (antisymm : ∀ k m, r k m → r m k → k = m) : out = other := by
  induction out generalizing l other with
  | nil =>
    refine (List.eq_nil_iff_forall_not_mem.mpr fun a ha => ?_).symm
    exact absurd (h.mem_iff.mpr (hother.mem_iff.mp ha)) List.not_mem_nil
  | cons a out ih =>
    cases other with
    | nil => exact absurd (hother.mem_iff.mpr (h.mem_iff.mp List.mem_cons_self)) List.not_mem_nil
    | cons b other =>
      -- Neither key can stand behind the other, so both heads are the first one with that key.
      have hkey : key b = key a :=
        antisymm _ _
          (hother.rel_head refl (hother.mem_iff.mpr (h.mem_iff.mp List.mem_cons_self)))
          (h.rel_head refl (h.mem_iff.mpr (hother.mem_iff.mp List.mem_cons_self)))
      have htied : ∀ k, ((a :: out).filter fun c => key c = k)
          = (b :: other).filter fun c => key c = k :=
        fun k => (h.tied k).trans (hother.tied k).symm
      have hfirst := htied (key a)
      rw [filter_cons_eq, filter_cons_eq, if_pos rfl, if_pos hkey] at hfirst
      obtain rfl : a = b := (List.cons.inj hfirst).1
      have hrest : ∀ k, (out.filter fun c => key c = k) = other.filter fun c => key c = k := by
        intro k
        have hk := htied k
        rw [filter_cons_eq, filter_cons_eq] at hk
        by_cases hfits : key a = k
        · rw [if_pos hfits, if_pos hfits] at hk
          exact (List.cons.inj hk).2
        · rwa [if_neg hfits, if_neg hfits] at hk
      have hout : SortsBy key r other out := ⟨(List.pairwise_cons.mp h.ordered).2, hrest⟩
      have hself : SortsBy key r other other :=
        ⟨(List.pairwise_cons.mp hother.ordered).2, fun _ => rfl⟩
      rw [ih hout hself]

end SortsBy
end
end RetirementVault
