import RetirementVault.Proofs.Sorting
import RetirementVault.Proofs.Text.Order
import RetirementVault.Statement.Basic

/-!
# A statement is the merge of its entries

What a list of items has to be like to be the statement of some purchases and withdrawals: it has
all of them, no date stands before a later one, and of each date the withdrawals stand first, then
the deposits, both in the order they were given in (`Statement.Merges`). There is one such list, and
it is the one the statement has (`items_are_the_merge`).

Sorting does not look past the dates, so it leaves the items of one date in their order
(`onDate_mergeSort`); and a list that falls by date is put together from its dates in one way only
(`eq_of_onDate_eq`).
-/

set_option autoImplicit false

namespace RetirementVault

namespace StatementItem

theorem newerOrSame_iff {a b : StatementItem} : newerOrSame a b = true ↔ b.date ≤ a.date :=
  decide_eq_true_iff

/-- The items of one date, in the order they stand in. -/
def onDate (date : String) (items : List StatementItem) : List StatementItem :=
  items.filter fun i => i.date = date

/-- Items with no date before a later one. -/
def Falls (items : List StatementItem) : Prop :=
  items.Pairwise fun a b => b.date ≤ a.date

/-- Sorting puts the later dates first. -/
theorem sortsBy_mergeSort (items : List StatementItem) :
    SortsBy date (fun k m => m ≤ k) items (items.mergeSort newerOrSame) :=
  RetirementVault.sortsBy_mergeSort date (fun k m => m ≤ k) (fun _ _ => newerOrSame_iff)
    String.le_refl (fun _ _ _ hkm hmn => String.le_trans hmn hkm)
    (fun k m => String.le_total m k) items

theorem falls_mergeSort (items : List StatementItem) : Falls (items.mergeSort newerOrSame) :=
  (sortsBy_mergeSort items).ordered

theorem onDate_mergeSort (date : String) (items : List StatementItem) :
    onDate date (items.mergeSort newerOrSame) = onDate date items :=
  (sortsBy_mergeSort items).tied date

/-- Items that fall by date are known from what they are on every date. -/
theorem eq_of_onDate_eq {items others : List StatementItem} (hitems : Falls items)
    (hothers : Falls others) (h : ∀ date, onDate date items = onDate date others) :
    items = others := by
  have hsorted : SortsBy date (fun k m => m ≤ k) others items := ⟨hitems, h⟩
  have hself : SortsBy date (fun k m => m ≤ k) others others := ⟨hothers, fun _ => rfl⟩
  exact hsorted.unique hself String.le_refl fun _ _ hkm hmk => String.le_antisymm hmk hkm

end StatementItem

namespace Statement

open StatementItem

/-- What makes a list of items the statement of some entries. -/
structure Merges (purchases : List Purchase) (withdrawals : List Withdrawal)
    (items : List StatementItem) : Prop where
  /-- Each entry is there, as often as it was given, and nothing else is. -/
  complete : items.Perm (withdrawals.map .withdraw ++ purchases.map .deposit)
  /-- No date stands before a later one, compared byte by byte. -/
  falls : items.Pairwise fun a b => Text.Utf8.encode b.date ≤ Text.Utf8.encode a.date
  /-- On each date the withdrawals stand first and the deposits last, in the order given. -/
  tied : ∀ date, onDate date items =
    (withdrawals.filter fun w => w.date = date).map .withdraw ++
      (purchases.filter fun p => p.date = date).map .deposit

theorem onDate_entries (date : String) (purchases : List Purchase)
    (withdrawals : List Withdrawal) :
    onDate date (withdrawals.map .withdraw ++ purchases.map .deposit)
      = (withdrawals.filter fun w => w.date = date).map .withdraw ++
        (purchases.filter fun p => p.date = date).map .deposit := by
  rw [onDate, List.filter_append, List.filter_map, List.filter_map]
  rfl

theorem Merges.falls_by_date {purchases : List Purchase} {withdrawals : List Withdrawal}
    {items : List StatementItem} (h : Merges purchases withdrawals items) : Falls items :=
  h.falls.imp Text.Utf8.encode_le_iff.mp

theorem merges_ofEntries (purchases : List Purchase) (withdrawals : List Withdrawal) :
    Merges purchases withdrawals (ofEntries purchases withdrawals).items where
  complete := List.mergeSort_perm _ _
  falls := (falls_mergeSort _).imp Text.Utf8.encode_le_iff.mpr
  tied date := (onDate_mergeSort date _).trans (onDate_entries date purchases withdrawals)

/-- **A statement has its entries in the one order there is for them**: all of them and no others,
the later dates first, and of each date the withdrawals before the deposits and each kind in the
order given. Any list that is like this is the statement's. -/
theorem items_are_the_merge (purchases : List Purchase) (withdrawals : List Withdrawal)
    (items : List StatementItem) :
    (ofEntries purchases withdrawals).items = items ↔ Merges purchases withdrawals items := by
  have hmerged := merges_ofEntries purchases withdrawals
  constructor
  · rintro rfl
    exact hmerged
  · intro h
    exact eq_of_onDate_eq hmerged.falls_by_date h.falls_by_date fun date =>
      (hmerged.tied date).trans (h.tied date).symm

end Statement
end RetirementVault
