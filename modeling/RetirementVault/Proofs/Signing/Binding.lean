import RetirementVault.Proofs.Text.Reading
import RetirementVault.Signing.Verifier

/-!
# What a signature binds

The message that is signed is made of three pieces without any mark between them, and still it can
be taken apart in one way only: the tag is always the same, the amount always has eight bytes, and
the destination is all that is left. So two requests have the same message exactly if they agree in
the amount and in the destination without the blanks around it (`message_inj`).

The verifier looks at a request through the same glasses. It reads key and signature from trimmed
texts, so blanks around a destination or a signature change neither its verdict nor what it finds
fault with, nor the place it says the fault is at.
-/

set_option autoImplicit false

namespace RetirementVault.Signing

open Text

/-! ## The message -/

theorem length_amountBytes (amount : Sats) : (amountBytes amount).length = 8 := by
  rw [amountBytes, List.length_map, List.length_range]

/-- Numbers whose low bytes are the same are the same as far as these bytes go. -/
theorem mod_pow_eq_of_bytes {m n : Nat} (count : Nat)
    (h : ∀ i < count, UInt8.ofNat (m / 256 ^ i) = UInt8.ofNat (n / 256 ^ i)) :
    m % 256 ^ count = n % 256 ^ count := by
  induction count with
  | zero => rw [Nat.pow_zero, Nat.mod_one, Nat.mod_one]
  | succ count ih =>
    have hbyte : m / 256 ^ count % 256 = n / 256 ^ count % 256 := by
      have hsame := congrArg UInt8.toNat (h count (Nat.lt_succ_self count))
      rwa [UInt8.toNat_ofNat', UInt8.toNat_ofNat'] at hsame
    have hlow := ih fun i hi => h i (Nat.lt_succ_of_lt hi)
    rw [Nat.mod_pow_succ, Nat.mod_pow_succ, hlow, hbyte]

theorem amountBytes_inj {amount other : Sats} :
    amountBytes amount = amountBytes other ↔ amount = other := by
  refine ⟨fun h => ?_, fun h => h ▸ rfl⟩
  have hbytes : ∀ i < 8,
      UInt8.ofNat (amount.toNat / 256 ^ i) = UInt8.ofNat (other.toNat / 256 ^ i) :=
    fun i hi => List.map_inj_left.mp h i (List.mem_range.mpr hi)
  have hmod := mod_pow_eq_of_bytes 8 hbytes
  rw [Nat.mod_eq_of_lt amount.toNat_lt, Nat.mod_eq_of_lt other.toNat_lt] at hmod
  exact UInt64.toNat_inj.mp hmod

/-- **A message tells its amount and its trimmed destination**, and nothing else goes into it. -/
theorem message_inj {amount other : Sats} {destination elsewhere : String} :
    message amount destination = message other elsewhere ↔
      amount = other ∧ trim destination = trim elsewhere := by
  constructor
  · intro h
    unfold message at h
    have hlength : (Utf8.encode tag ++ amountBytes amount).length
        = (Utf8.encode tag ++ amountBytes other).length := by
      rw [List.length_append, List.length_append, length_amountBytes, length_amountBytes]
    obtain ⟨hhead, hdestination⟩ := List.append_inj h hlength
    have hamount := List.append_cancel_left hhead
    exact ⟨amountBytes_inj.mp hamount, Utf8.encode_inj.mp hdestination⟩
  · rintro ⟨rfl, hdestination⟩
    rw [message, message, hdestination]

/-! ## The verdict -/

theorem parseKeyBytes_congr {role : KeyRole} {text other : String} (h : trim text = trim other) :
    parseKeyBytes role text = parseKeyBytes role other := by
  rw [parseKeyBytes, parseKeyBytes, trimmedBytes, trimmedBytes, h]

theorem parsePublicKey_congr {text other : String} (h : trim text = trim other) :
    parsePublicKey text = parsePublicKey other := by
  rw [parsePublicKey, parsePublicKey, parseKeyBytes_congr h]

theorem parseSignature_congr {text other : String} (h : trim text = trim other) :
    parseSignature text = parseSignature other := by
  rw [parseSignature, parseSignature, trimmedBytes, trimmedBytes, h]

theorem digest_congr {amount : Sats} {destination elsewhere : String}
    (h : trim destination = trim elsewhere) :
    digest amount destination = digest amount elsewhere := by
  rw [digest, digest, message_inj.mpr ⟨rfl, h⟩]

theorem ed25519_congr {r other : Request} (hamount : r.amount = other.amount)
    (hdestination : trim r.destination = trim other.destination)
    (hsignature : trim r.signature = trim other.signature) : ed25519 r = ed25519 other := by
  rw [ed25519, ed25519, parsePublicKey_congr hdestination, parseSignature_congr hsignature,
    hamount, digest_congr hdestination]

/-- **A signature binds the amount and the destination, and blanks do not matter.** What is hashed
for signing is a message, and two messages are the same bytes exactly if their amounts and their
trimmed destinations are the same. Requests that agree in these and in the trimmed signature get
the same from the verifier: both are accepted, or both are refused for the same fault. -/
theorem signature_binds_amount_and_destination :
    (∀ amount destination,
      digest amount destination = Crypto.sha256.hash (message amount destination)) ∧
    (∀ amount other destination elsewhere,
      message amount destination = message other elsewhere ↔
        amount = other ∧ trim destination = trim elsewhere) ∧
    ∀ r other : Request, r.amount = other.amount → trim r.destination = trim other.destination →
      trim r.signature = trim other.signature → ed25519 r = ed25519 other :=
  ⟨fun _ _ => rfl, fun _ _ _ _ => message_inj, fun _ _ => ed25519_congr⟩

/-- A digit that is none is found at the same place, however the destination is padded. -/
theorem signature_binds_amount_and_destination_at_bad_digit :
    let r : Request := { amount := 5, destination := "  0x", signature := "s" }
    let other : Request := { amount := 5, destination := "0x\u3000", signature := "\ts" }
    r.amount = other.amount ∧ trim r.destination = trim other.destination ∧
      trim r.signature = trim other.signature ∧ ed25519 r = ed25519 other ∧
      ed25519 r
        = .error (.malformedKey (KeyFault.notHex .publicKey (.badDigit 120 1)).message) := by
  intro r other
  have hdestination : trim r.destination = trim other.destination := by decide +kernel
  have hsignature : trim r.signature = trim other.signature := by decide +kernel
  have hsame := signature_binds_amount_and_destination.2.2 r other rfl hdestination hsignature
  have hbytes : trimmedBytes r.destination = [48, 120] := by decide +kernel
  have hfault : ed25519 r
      = .error (.malformedKey (KeyFault.notHex .publicKey (.badDigit 120 1)).message) := by
    rw [ed25519, parsePublicKey, parseKeyBytes, hbytes]
    rfl
  exact ⟨rfl, hdestination, hsignature, hsame, hfault⟩

end RetirementVault.Signing
