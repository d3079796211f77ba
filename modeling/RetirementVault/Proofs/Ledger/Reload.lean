import RetirementVault.Proofs.Ledger.Step
import RetirementVault.Proofs.Statement.Record
import RetirementVault.Settings

/-!
# Going through storage is not noticed

Whatever is stored comes back as it was: a ledger, the settings of a vault, a list of purchases, a
list of withdrawals, each in either layout. For a ledger more follows. A run may write its ledger
out and go on with what is read back, at any point and as often as it likes: it finds the same
ledgers, gets the same answers and ends at the same ledger as the run that never does
(`travels_eq`).
-/

set_option autoImplicit false

namespace RetirementVault

def Settings.codec : Json.Codec Settings where
  toJson := toJson
  ofJson? := ofJson?
  writable s := by
    refine Json.writable_ofMembers fun m hm => ?_
    simp only [List.mem_cons, List.not_mem_nil, or_false] at hm
    rcases hm with rfl | rfl
    · exact Json.writable_ofText _
    · exact Json.writable_ofNat _
  ofJson?_toJson s := by
    have hfields := Json.fields?_ofMembers
      [("label", .ofText s.label), ("balance", .ofNat s.balance.toNat)] (by simp) 0
    simp only [List.map_cons, List.map_nil] at hfields
    simp [ofJson?, toJson, hfields]

/-- A leg of a run: a call, or the ledger goes out in a layout and comes back. -/
inductive Leg where
  | call (c : Call)
  | reload (layout : Json.Layout)

def Leg.call? : Leg → Option Call
  | .call c => some c
  | .reload _ => none

namespace Ledger

/-- The history of a run and the ledger it ends at; nothing if the ledger ever fails to come
back. -/
def travels (l : Ledger) : List Leg → Option (List Event × Ledger)
  | [] => some ([], l)
  | .call c :: legs => do
    let (past, last) ← (l.call c).2.travels legs
    return (l.event c :: past, last)
  | .reload layout :: legs => do
    let back ← ofBytes? (Text.Utf8.encode (l.text layout))
    back.travels legs

/-- A run through storage is the run of its calls. -/
theorem travels_eq (l : Ledger) (legs : List Leg) :
    l.travels legs
      = some (l.history (legs.filterMap Leg.call?), (l.run (legs.filterMap Leg.call?)).2) := by
  induction legs generalizing l with
  | nil => rfl
  | cons leg legs ih =>
    cases leg with
    | call c =>
      have hcalls : (Leg.call c :: legs).filterMap Leg.call? = c :: legs.filterMap Leg.call? := rfl
      rw [travels, ih, hcalls, history, run_cons]
      rfl
    | reload layout =>
      have hcalls : (Leg.reload layout :: legs).filterMap Leg.call? = legs.filterMap Leg.call? :=
        rfl
      rw [travels, ofBytes?_text, hcalls]
      exact ih l

/-- **Whatever is stored comes back, and a run does not notice it.** Every ledger, every settings
and every list of purchases or of withdrawals is read back from its own text, compact or pretty;
and a run that reloads its ledger here and there, in either layout, finds, answers and leaves what
the same calls do without that. -/
theorem stored_and_read_back :
    (∀ (layout : Json.Layout) (l : Ledger),
      ofBytes? (Text.Utf8.encode (l.text layout)) = some l) ∧
    (∀ (layout : Json.Layout) (s : Settings),
      Settings.ofBytes? (Text.Utf8.encode (s.toJson.text layout)) = some s) ∧
    (∀ (layout : Json.Layout) (ps : List Purchase),
      (Json.ofBytes? (Text.Utf8.encode (Json.text layout (.arr (ps.map Purchase.toJson))))).bind
        (Json.list? Purchase.ofJson?) = some ps) ∧
    (∀ (layout : Json.Layout) (ws : List Withdrawal),
      (Json.ofBytes? (Text.Utf8.encode (Json.text layout (.arr (ws.map Withdrawal.toJson))))).bind
        (Json.list? Withdrawal.ofJson?) = some ws) ∧
    ∀ (l : Ledger) (legs : List Leg), l.travels legs
      = some (l.history (legs.filterMap Leg.call?), (l.run (legs.filterMap Leg.call?)).2) :=
  ⟨ofBytes?_text, Settings.codec.ofBytes?_text, Purchase.codec.list.ofBytes?_text,
    Withdrawal.codec.list.ofBytes?_text, travels_eq⟩

end Ledger
end RetirementVault
