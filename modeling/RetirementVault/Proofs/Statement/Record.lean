import RetirementVault.Proofs.Json.Codec
import RetirementVault.Statement.Entry

/-!
# Stored entries of a statement

Purchases and withdrawals have six fields each, texts and words, and all of them have to be there.
Each field is found where it was written, so an entry has a stored form, and with it a list of
entries.
-/

set_option autoImplicit false

namespace RetirementVault

/-- The stored form of a purchase. -/
def Purchase.codec : Json.Codec Purchase where
  toJson := toJson
  ofJson? := ofJson?
  writable p := by
    refine Json.writable_ofMembers fun m hm => ?_
    simp only [fieldNames, List.zip_cons_cons, List.zip_nil_right, List.mem_cons,
      List.not_mem_nil, or_false] at hm
    rcases hm with rfl | rfl | rfl | rfl | rfl | rfl
    · exact Json.writable_ofText _
    · exact Json.writable_ofText _
    all_goals exact Json.writable_ofNat _
  ofJson?_toJson p := by
    have hfields := Json.fields?_ofMembers (fieldNames.zip [.ofText p.date, .ofText p.time,
      .ofNat p.contributed.toNat, .ofNat p.price.toNat, .ofNat p.acquired.toNat,
      .ofNat p.current.toNat]) (by simp [fieldNames]) 6
    simp only [fieldNames, List.zip_cons_cons, List.zip_nil_right, List.map_cons, List.map_nil]
      at hfields
    simp [ofJson?, toJson, fieldNames, hfields]

/-- The stored form of a withdrawal. -/
def Withdrawal.codec : Json.Codec Withdrawal where
  toJson := toJson
  ofJson? := ofJson?
  writable w := by
    refine Json.writable_ofMembers fun m hm => ?_
    simp only [fieldNames, List.zip_cons_cons, List.zip_nil_right, List.mem_cons,
      List.not_mem_nil, or_false] at hm
    rcases hm with rfl | rfl | rfl | rfl | rfl | rfl
    · exact Json.writable_ofText _
    · exact Json.writable_ofText _
    · exact Json.writable_ofText _
    all_goals exact Json.writable_ofNat _
  ofJson?_toJson w := by
    have hfields := Json.fields?_ofMembers (fieldNames.zip [.ofText w.id, .ofText w.date,
      .ofText w.time, .ofNat w.amount.toNat, .ofNat w.sats.toNat, .ofNat w.price.toNat])
      (by simp [fieldNames]) 6
    simp only [fieldNames, List.zip_cons_cons, List.zip_nil_right, List.map_cons, List.map_nil]
      at hfields
    simp [ofJson?, toJson, fieldNames, hfields]

end RetirementVault
