import RetirementVault.Ledger.Basic

/-!
# What the saver is told of a success

One sentence for each of the two calls that change a ledger. Every front end says it in the same
words.
-/

namespace RetirementVault.Operation

def reservedNotice (op : Operation) : String :=
  "Pending operation created (id=" ++ op.id ++ ")."

def settledNotice (op : Operation) : String :=
  "Withdrawal executed for " ++ Text.decimal op.amount.toNat ++ " sats."

end RetirementVault.Operation
