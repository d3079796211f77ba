import RetirementVault.Proofs.Ledger.Answer
import RetirementVault.Proofs.Ledger.Conservation

/-!
# Withdrawals that were signed for

A ledger does not keep signatures: once a withdrawal is reserved, nothing in it says who wanted it.
What can be said is said of the history. If the verifier of signatures is asked before every
reservation, then for every withdrawal a ledger has settled or holds there is a request among the
calls, for the same amount and the same destination, with a signature over just these.

The verifier is handed the very request that is stored, so nothing comes between what is signed for
and what is reserved (`asked_of_reserved`).
-/

set_option autoImplicit false

namespace RetirementVault

namespace Signing

/-- A text is a signature of an amount and a destination under the destination's own key. -/
def IsSigned (amount : Sats) (destination signature : String) : Prop :=
  ∃ key bytes, parsePublicKey destination = .ok key ∧ parseSignature signature = .ok bytes ∧
    Crypto.Ed25519.verify key (digest amount destination) bytes = true

/-- **The verifier accepts what is signed and nothing else.** -/
theorem ed25519_eq_ok_iff {r : Request} :
    ed25519 r = .ok () ↔ IsSigned r.amount r.destination r.signature := by
  unfold ed25519 IsSigned
  cases hkey : parsePublicKey r.destination with
  | error why => simp
  | ok key =>
    cases hbytes : parseSignature r.signature with
    | error why => simp
    | ok bytes => simp

end Signing

/-- The call reserves only what is signed for. -/
def Call.AsksForSignature (c : Call) : Prop :=
  ∃ now r, c = .initiateVerified Signing.ed25519 now r ∨ c = .reserveVerified Signing.ed25519 now r

namespace Ledger

/-- A withdrawal of something for which a signature has been submitted: it was reserved by a request
for the same amount and destination that came with a signature over these. -/
def SignedFor (past : List Event) (op : Operation) : Prop :=
  0 < op.amount.toNat ∧ ∃ e ∈ past, e.reserved? = some op ∧ ∃ now r,
    e.call.asks? = some (now, r) ∧ r.amount = op.amount ∧ r.destination = op.destination ∧
      Signing.IsSigned op.amount op.destination r.signature

/-- Everything that has been settled and whatever is pending was signed for. -/
def AllSignedFor (past : List Event) (now : Ledger) : Prop :=
  ∀ op ∈ settledIn past ++ now.pending.toList, SignedFor past op

variable {l : Ledger} {c : Call} {op : Operation} {past : List Event}

theorem verifier_of_objection?_none {verifier : Signing.Verifier} {r : Request}
    (h : l.objection? verifier r = none) : verifier r = .ok () := by
  unfold objection? at h
  split at h
  · exact nomatch h
  · exact nomatch h
  · exact nomatch h
  · next hasked _ => exact hasked

/-- What has been reserved is what the verifier was asked for. -/
theorem asked_of_reserved (h : (l.event c).reserved? = some op) (hguard : c.AsksForSignature) :
    ∃ now r, c.asks? = some (now, r) ∧ r.amount = op.amount ∧ r.destination = op.destination ∧
      Signing.IsSigned op.amount op.destination r.signature := by
  obtain ⟨now, r, hasks, _, hagreed, _, rfl, _⟩ := reserved_event h
  -- Both calls ask the same verifier, so what nothing speaks against has passed it.
  have hnone : l.objection? Signing.ed25519 r = none := by
    obtain ⟨_, _, rfl | rfl⟩ := hguard
    · obtain ⟨rfl, rfl⟩ := Prod.mk.inj (Option.some.inj hasks)
      exact hagreed
    · obtain ⟨rfl, rfl⟩ := Prod.mk.inj (Option.some.inj hasks)
      exact hagreed
  exact ⟨now, r, hasks, rfl, rfl, Signing.ed25519_eq_ok_iff.mp (verifier_of_objection?_none hnone)⟩

theorem SignedFor.of_subset {more : List Event} (h : SignedFor past op) (hsub : past ⊆ more) :
    SignedFor more op := by
  obtain ⟨hpositive, e, he, hrest⟩ := h
  exact ⟨hpositive, e, hsub he, hrest⟩

/-- **A call keeps everything signed for**, if it does not reserve without asking for a
signature. -/
theorem AllSignedFor.call (h : AllSignedFor past l)
    (hguard : (l.event c).reserved?.isSome = true → c.AsksForSignature) :
    AllSignedFor (past ++ [l.event c]) (l.call c).2 := by
  have hold {op : Operation} (hop : op ∈ settledIn past ++ l.pending.toList) :
      SignedFor (past ++ [l.event c]) op :=
    (h op hop).of_subset (List.subset_append_left _ _)
  intro op hop
  rw [settledIn, List.filterMap_append, List.mem_append, List.mem_append] at hop
  -- It was settled before, or by this call, or it is pending now.
  rcases hop with (hsettled | hnow) | hpending
  · exact hold (List.mem_append_left _ hsettled)
  · have hsettles : (l.event c).settled? = some op := by simpa using hnow
    refine hold (List.mem_append_right _ ?_)
    rw [(settled_event hsettles).1]
    exact List.mem_singleton_self op
  · rcases pending_call (Option.mem_toList.mp hpending) with hbefore | hreserved
    · exact hold (List.mem_append_right _ (Option.mem_toList.mpr hbefore))
    · obtain ⟨_, r, _, hgrants, _, _, rfl, _⟩ := reserved_event hreserved
      refine ⟨hgrants.positive, _, List.mem_append_right _ (List.mem_singleton_self _), hreserved,
        ?_⟩
      exact asked_of_reserved hreserved (hguard (by rw [hreserved]; rfl))

theorem allSignedFor_of_idle (h : l.pending = none) : AllSignedFor [] l := by
  intro op hop
  rw [h] at hop
  exact nomatch hop

end Ledger
end RetirementVault
