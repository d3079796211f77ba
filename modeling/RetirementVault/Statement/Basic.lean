import RetirementVault.Statement.Summary

/-!
# Statements

A statement lists purchases and withdrawals, the newest first. Where dates are equal the
withdrawals come before the deposits and each kind keeps the order it was given in. A withdrawal on
the statement can be vetoed, by its id and once.
-/

namespace RetirementVault

/-- A line of a statement. -/
inductive StatementItem where
  | deposit (purchase : Purchase)
  | withdraw (withdrawal : Withdrawal)
  deriving DecidableEq, Repr

namespace StatementItem

def date : StatementItem → String
  | .deposit p => p.date
  | .withdraw w => w.date

def purchase? : StatementItem → Option Purchase
  | .deposit p => some p
  | .withdraw _ => none

def withdrawal? : StatementItem → Option Withdrawal
  | .deposit _ => none
  | .withdraw w => some w

/-- Whether a line may stand before another, the later date first. -/
def newerOrSame (a b : StatementItem) : Bool :=
  decide (b.date ≤ a.date)

end StatementItem

structure Statement where
  items : List StatementItem
  /-- The ids that have been vetoed, the latest first. -/
  vetoed : List String
  deriving DecidableEq, Repr

/-- An id no withdrawal of a statement has. -/
structure UnknownWithdrawal where
  id : String
  deriving DecidableEq, Repr

def UnknownWithdrawal.message (e : UnknownWithdrawal) : String :=
  "unknown withdrawal " ++ e.id

namespace Statement

/-- The statement of some purchases and withdrawals. -/
def ofEntries (purchases : List Purchase) (withdrawals : List Withdrawal) : Statement where
  items :=
    (withdrawals.map StatementItem.withdraw ++ purchases.map StatementItem.deposit).mergeSort
      StatementItem.newerOrSame
  vetoed := []

def purchases (s : Statement) : List Purchase :=
  s.items.filterMap StatementItem.purchase?

def withdrawals (s : Statement) : List Withdrawal :=
  s.items.filterMap StatementItem.withdrawal?

/-- What the purchases on a statement add up to. -/
def summary (s : Statement) : Except Overflow Summary :=
  Summary.ofPurchases s.purchases

def isVetoed (s : Statement) (id : String) : Bool :=
  s.vetoed.contains id

/-- Vetoes a withdrawal and says whether that is new. -/
def veto (s : Statement) (id : String) : Except UnknownWithdrawal Bool × Statement :=
  if s.withdrawals.any fun w => w.id = id then
    if s.isVetoed id then (.ok false, s) else (.ok true, { s with vetoed := id :: s.vetoed })
  else (.error ⟨id⟩, s)

end Statement
end RetirementVault
