import RetirementVault.Statement.Basic

/-!
# Vetoes are kept

A statement keeps the ids that have been vetoed, and a call to veto is answered by its items and by
that record alone. After any calls the record is therefore what the answers so far say: an id is in
it exactly if a call with it was granted, and calls are granted exactly for the ids of withdrawals
on the statement, however many withdrawals share an id. So the first call with such an id is told
that it is new and every later one that it is not, whatever was asked for in between
(`Statement.Kept`).

Calls in another order are told the same things at other times and leave the same record.
-/

set_option autoImplicit false

namespace RetirementVault.Statement

/-- A withdrawal with an id is on the statement. -/
def Lists (s : Statement) (id : String) : Prop :=
  ∃ w : Withdrawal, .withdraw w ∈ s.items ∧ w.id = id

/-- What a call to veto is answered. -/
abbrev VetoAnswer := Except UnknownWithdrawal Bool

/-- Makes calls to veto one after another and collects them with their answers. -/
def vetoes (s : Statement) : List String → List (String × VetoAnswer) × Statement
  | [] => ([], s)
  | id :: later =>
    let (answer, next) := s.veto id
    let (answers, last) := next.vetoes later
    ((id, answer) :: answers, last)

/-- The withdrawals on a statement are those it was made from. -/
theorem lists_ofEntries {purchases : List Purchase} {withdrawals : List Withdrawal} {id : String} :
    (ofEntries purchases withdrawals).Lists id ↔ ∃ w ∈ withdrawals, w.id = id := by
  refine exists_congr fun w => and_congr_left' ?_
  rw [ofEntries, List.mem_mergeSort]
  simp

/-! ## One call -/

variable {s : Statement} {id : String}

theorem any_withdrawals_iff : (s.withdrawals.any fun w => w.id = id) = true ↔ s.Lists id := by
  have hmem (w : Withdrawal) : w ∈ s.withdrawals ↔ .withdraw w ∈ s.items := by
    rw [withdrawals, List.mem_filterMap]
    constructor
    · rintro ⟨item, hitem, hw⟩
      cases item with
      | deposit p => cases hw
      | withdraw w' => rwa [← Option.some.inj hw]
    · exact fun hitem => ⟨_, hitem, rfl⟩
  simp only [List.any_eq_true, decide_eq_true_iff, hmem, Lists]

instance (s : Statement) (id : String) : Decidable (s.Lists id) :=
  decidable_of_iff _ any_withdrawals_iff

theorem isVetoed_iff : s.isVetoed id = true ↔ id ∈ s.vetoed :=
  List.contains_iff_mem

/-- What a call is answered: that the id is unknown, or whether it is new to the record. -/
theorem veto_fst (s : Statement) (id : String) :
    (s.veto id).1 = if s.Lists id then .ok !s.isVetoed id else .error ⟨id⟩ := by
  by_cases hlists : s.Lists id
  · rw [veto, if_pos (any_withdrawals_iff.mpr hlists), if_pos hlists]
    cases s.isVetoed id with
    | true => rfl
    | false => rfl
  · rw [veto, if_neg (mt any_withdrawals_iff.mp hlists), if_neg hlists]

/-- What a call leaves: the same statement, or one with a new id in the record. -/
theorem veto_snd (s : Statement) (id : String) :
    (s.veto id).2 =
      if s.Lists id ∧ s.isVetoed id = false then { s with vetoed := id :: s.vetoed } else s := by
  by_cases hlists : s.Lists id
  · rw [veto, if_pos (any_withdrawals_iff.mpr hlists)]
    cases hvetoed : s.isVetoed id with
    | true => simp
    | false => simp [hlists]
  · rw [veto, if_neg (mt any_withdrawals_iff.mp hlists), if_neg fun h => hlists h.1]

theorem items_veto (s : Statement) (id : String) : (s.veto id).2.items = s.items := by
  rw [veto_snd]
  split
  · rfl
  · rfl

/-- A call adds its own id to the record, and only if a withdrawal has it. -/
theorem isVetoed_veto (s : Statement) (id other : String) :
    (s.veto id).2.isVetoed other = true ↔
      s.isVetoed other = true ∨ other = id ∧ s.Lists other := by
  rw [veto_snd]
  split
  · next hnew =>
    rw [isVetoed_iff, isVetoed_iff, List.mem_cons, or_comm]
    refine or_congr_right (iff_self_and.mpr ?_)
    rintro rfl
    exact hnew.1
  · next hold =>
    refine (or_iff_left_of_imp ?_).symm
    rintro ⟨rfl, hlists⟩
    exact eq_true_of_ne_false fun hnew => hold ⟨hlists, hnew⟩

theorem granted_veto_iff : (∃ fresh, .ok fresh = (s.veto id).1) ↔ s.Lists id := by
  rw [veto_fst]
  split
  · next h => exact iff_of_true ⟨_, rfl⟩ h
  · next h =>
    refine iff_of_false ?_ h
    rintro ⟨fresh, hfresh⟩
    cases hfresh

/-! ## Calls one after another -/

theorem items_vetoes (s : Statement) (calls : List String) :
    (s.vetoes calls).2.items = s.items := by
  induction calls generalizing s with
  | nil => rfl
  | cons id later ih => exact (ih (s.veto id).2).trans (items_veto s id)

theorem lists_congr {t : Statement} (h : s.items = t.items) : s.Lists id ↔ t.Lists id := by
  rw [Lists, Lists, h]

/-- After some calls the record holds what it held and the listed ids that were called with. -/
theorem isVetoed_vetoes (s : Statement) (calls : List String) (id : String) :
    (s.vetoes calls).2.isVetoed id = true ↔
      s.isVetoed id = true ∨ id ∈ calls ∧ s.Lists id := by
  induction calls generalizing s with
  | nil => simp [vetoes]
  | cons first later ih =>
    show ((s.veto first).2.vetoes later).2.isVetoed id = true ↔ _
    rw [ih, isVetoed_veto, lists_congr (items_veto s first), or_assoc, ← or_and_right,
      List.mem_cons]

/-- The calls that have been granted are those with a listed id. -/
theorem granted_vetoes_iff (s : Statement) (calls : List String) (id : String) :
    (∃ fresh, (id, .ok fresh) ∈ (s.vetoes calls).1) ↔ id ∈ calls ∧ s.Lists id := by
  induction calls generalizing s with
  | nil => simp [vetoes]
  | cons first later ih =>
    show (∃ fresh, (id, .ok fresh) ∈ (first, (s.veto first).1) :: ((s.veto first).2.vetoes later).1)
      ↔ _
    simp only [List.mem_cons, exists_or, Prod.mk.injEq, exists_and_left, ih,
      lists_congr (items_veto s first)]
    rw [or_and_right]
    refine or_congr_left (and_congr_right ?_)
    rintro rfl
    exact granted_veto_iff

/-! ## The record -/

/-- How a statement stands after some calls and what the next one will be told. -/
structure Kept (first : Statement) (calls : List String) (past : List (String × VetoAnswer))
    (now : Statement) : Prop where
  /-- The items are those of the start, -/
  items : now.items = first.items
  /-- and so is what they add up to. -/
  summary : now.summary = first.summary
  /-- An id is in the record if and only if a call with it has been granted. -/
  recorded : ∀ id, now.isVetoed id = true ↔ ∃ fresh, (id, .ok fresh) ∈ past
  /-- No id is in the record but those of withdrawals. -/
  listed : ∀ id, now.isVetoed id = true → first.Lists id
  /-- A call is turned down if and only if no withdrawal has its id. -/
  unknown : ∀ id, (now.veto id).1 = .error ⟨id⟩ ↔ ¬ first.Lists id
  /-- A call that is turned down changes nothing. -/
  unchanged : ∀ id, ¬ first.Lists id → (now.veto id).2 = now
  /-- The first call with a listed id is told that it is new. -/
  new : ∀ id, (now.veto id).1 = .ok true ↔ first.Lists id ∧ id ∉ calls
  /-- Every later one is told that it is not. -/
  again : ∀ id, (now.veto id).1 = .ok false ↔ first.Lists id ∧ id ∈ calls

/-- Calls on a statement with nothing in its record are kept. -/
theorem kept_vetoes {first : Statement} (hfirst : first.vetoed = []) (calls : List String) :
    Kept first calls (first.vetoes calls).1 (first.vetoes calls).2 := by
  have hitems := items_vetoes first calls
  have hlists (id : String) : (first.vetoes calls).2.Lists id ↔ first.Lists id :=
    lists_congr hitems
  have hrecord (id : String) :
      (first.vetoes calls).2.isVetoed id = true ↔ id ∈ calls ∧ first.Lists id := by
    rw [isVetoed_vetoes, isVetoed_iff, hfirst, or_iff_right List.not_mem_nil]
  have hanswer (id : String) : ((first.vetoes calls).2.veto id).1 =
      if first.Lists id then .ok !decide (id ∈ calls) else .error ⟨id⟩ := by
    rw [veto_fst]
    simp only [hlists]
    split
    · next hlisted =>
      rw [show (first.vetoes calls).2.isVetoed id = decide (id ∈ calls) by
        rw [Bool.eq_iff_iff, hrecord, decide_eq_true_iff, and_iff_left hlisted]]
    · rfl
  refine {
    items := hitems
    summary := by rw [summary, summary, purchases, purchases, hitems]
    recorded := fun id => (hrecord id).trans (granted_vetoes_iff first calls id).symm
    listed := fun id h => ((hrecord id).mp h).2
    unknown := fun id => ?_
    unchanged := fun id h => ?_
    new := fun id => ?_
    again := fun id => ?_ }
  · rw [hanswer]
    split <;> simp [*]
  · rw [veto_snd, if_neg fun hnew => h ((hlists id).mp hnew.1)]
  · rw [hanswer]
    split <;> simp [*]
  · rw [hanswer]
    split <;> simp [*]

/-- **Vetoes are kept.** Whatever calls to veto are made on a statement of some purchases and
withdrawals, the record is at every moment what the answers so far say, the next answer follows from
it, and the items stay as they are. The same calls in another order leave the same record. -/
theorem vetoes_are_kept (purchases : List Purchase) (withdrawals : List Withdrawal)
    (calls : List String) :
    let first := ofEntries purchases withdrawals
    Kept first calls (first.vetoes calls).1 (first.vetoes calls).2 ∧
      ∀ others, others.Perm calls → ∀ id,
        (first.vetoes others).2.isVetoed id = (first.vetoes calls).2.isVetoed id := by
  intro first
  refine ⟨kept_vetoes rfl calls, fun others hperm id => Bool.eq_iff_iff.mpr ?_⟩
  rw [isVetoed_vetoes, isVetoed_vetoes, hperm.mem_iff]

/-- Two withdrawals that share an id, and calls with it before and after one that nobody knows. -/
theorem vetoes_are_kept_of_shared_id :
    let w : Withdrawal :=
      { id := "w-1", date := "2024-06-28", time := "15:10", amount := 1, sats := 1, price := 0 }
    let first := ofEntries [] [w, { w with date := "2024-07-28" }]
    let calls := ["w-1", "x", "w-1"]
    let others := ["x", "w-1", "w-1"]
    others.Perm calls ∧
      (first.vetoes others).2.isVetoed "w-1" = (first.vetoes calls).2.isVetoed "w-1" ∧
      (first.vetoes calls).2.isVetoed "w-1" = true ∧
      ((first.vetoes calls).2.veto "w-1").1 = .ok false ∧
      ((first.vetoes calls).2.veto "x").1 = .error ⟨"x"⟩ := by
  intro w first calls others
  have hperm : others.Perm calls := by decide
  have hlisted : first.Lists "w-1" := lists_ofEntries.mpr ⟨w, by simp, rfl⟩
  have hunknown : ¬ first.Lists "x" := by
    rw [lists_ofEntries]
    simp [w]
  obtain ⟨hkept, hsame⟩ := vetoes_are_kept [] [w, { w with date := "2024-07-28" }] calls
  have hvetoed := (isVetoed_vetoes first calls "w-1").mpr (.inr ⟨by decide, hlisted⟩)
  exact ⟨hperm, hsame others hperm "w-1", hvetoed, (hkept.again "w-1").mpr ⟨hlisted, by decide⟩,
    (hkept.unknown "x").mpr hunknown⟩

end RetirementVault.Statement
