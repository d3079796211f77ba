import RetirementVault.Ledger.Call
import RetirementVault.Proofs.Json.Field

/-!
# A stored ledger is read back

The round trip of the stored form, record by record. `ofBytes?_text` holds for **every** ledger and
in both layouts: any text in label, id and destination, any word in balance, amount and number.
Therefore `reloaded` always succeeds with the same ledger, and a history may reload wherever it
likes.
-/

set_option autoImplicit false

namespace RetirementVault

theorem Vault.writable_toJson (v : Vault) : v.toJson.Writable := by
  refine Json.writable_ofMembers fun m hm => ?_
  simp only [List.mem_cons, List.not_mem_nil, or_false] at hm
  rcases hm with rfl | rfl
  · exact Json.writable_ofText _
  · exact Json.writable_ofNat _

/-- A vault is read back from its tree. -/
@[simp] theorem Vault.ofJson?_toJson (v : Vault) : Vault.ofJson? v.toJson = some v := by
  have hfields := Json.fields?_ofMembers
    [("label", .ofText v.label), ("balance", .ofNat v.balance.toNat)] (by simp) 2
  simp only [List.map_cons, List.map_nil] at hfields
  simp [Vault.ofJson?, Vault.toJson, hfields]

theorem Operation.writable_toJson (o : Operation) : o.toJson.Writable := by
  refine Json.writable_ofMembers fun m hm => ?_
  simp only [List.mem_cons, List.not_mem_nil, or_false] at hm
  rcases hm with rfl | rfl | rfl
  · exact Json.writable_ofText _
  · exact Json.writable_ofNat _
  · exact Json.writable_ofText _

/-- A reserved withdrawal is read back from its tree. -/
@[simp] theorem Operation.ofJson?_toJson (o : Operation) :
    Operation.ofJson? o.toJson = some o := by
  have hfields := Json.fields?_ofMembers
    [("id", .ofText o.id), ("amount", .ofNat o.amount.toNat),
      ("destination", .ofText o.destination)] (by simp) 3
  simp only [List.map_cons, List.map_nil] at hfields
  simp [Operation.ofJson?, Operation.toJson, hfields]

namespace Ledger

/-- The pending withdrawal as it stands in the tree of a ledger. -/
def pendingJson : Option Operation → Json
  | some op => op.toJson
  | none => .null

theorem toJson_eq (l : Ledger) :
    l.toJson = .ofMembers [("vault", l.vault.toJson), ("pending", pendingJson l.pending),
      ("next_sequence", .ofNat l.nextSequence.toNat)] := by
  unfold toJson pendingJson
  cases l.pending <;> rfl

theorem writable_toJson (l : Ledger) : l.toJson.Writable := by
  rw [toJson_eq]
  refine Json.writable_ofMembers fun m hm => ?_
  simp only [List.mem_cons, List.not_mem_nil, or_false] at hm
  rcases hm with rfl | rfl | rfl
  · exact l.vault.writable_toJson
  · cases hp : l.pending with
    | some op => exact op.writable_toJson
    | none =>
      rw [pendingJson, Json.Writable]
      trivial
  · exact Json.writable_ofNat _

@[simp] theorem optional?_pendingJson (pending : Option Operation) :
    (pendingJson pending).optional? Operation.ofJson? = some pending := by
  cases pending with
  | none => rfl
  | some op =>
    show (Operation.ofJson? op.toJson).map some = _
    rw [Operation.ofJson?_toJson, Option.map_some]

theorem ofJson?_toJson (l : Ledger) : ofJson? l.toJson = some l := by
  have hfields := Json.fields?_ofMembers
    [("vault", l.vault.toJson), ("pending", pendingJson l.pending),
      ("next_sequence", .ofNat l.nextSequence.toNat)] (by simp) 2
  simp only [List.map_cons, List.map_nil] at hfields
  simp [ofJson?, toJson_eq, hfields]

/-- **A ledger is read back from its own text.** -/
theorem ofBytes?_text (layout : Json.Layout) (l : Ledger) :
    ofBytes? (Text.Utf8.encode (l.text layout)) = some l := by
  rw [ofBytes?, text, Json.ofBytes?_text layout l.writable_toJson, Option.bind_some,
    ofJson?_toJson]

@[simp] theorem reloaded_eq (l : Ledger) : l.reloaded = some l :=
  ofBytes?_text .compact l

end Ledger
end RetirementVault
