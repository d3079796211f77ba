import RetirementVault.Command.Run
import RetirementVault.Proofs.Ledger.Signed
import RetirementVault.Proofs.Signing.Encoding

/-!
# What is signed is accepted

Signing and verifying reach the signed bytes on different ways. The one has a secret key and a
destination as they were typed; the other has a destination and a signature as they were submitted,
the destination in letters of either case, the signature in one of two encodings, blanks around all
of them. `signed_is_accepted` says that they meet: whatever is signed with a secret key for the
public key that belongs to it passes the verifier and is reserved as submitted.

Of the scheme itself two things are taken for granted, at the key and the message in question: the
public key it derives is a point, and it accepts what it has signed. The second does not hold of
every message, as the nonce may be zero.
-/

set_option autoImplicit false

namespace RetirementVault

namespace Crypto.Ed25519

theorem length_encode (p : Point) : p.encode.length = 32 := by
  simp [Point.encode, littleEndian]

theorem length_publicKey (secret : List UInt8) : (publicKey secret).length = 32 :=
  length_encode _

theorem length_sign (secret message : List UInt8) : (sign secret message).length = 64 := by
  unfold sign
  generalize expand secret = halves
  obtain ⟨a, seed⟩ := halves
  rw [List.length_append, length_encode, littleEndian, List.length_map, List.length_range]

end Crypto.Ed25519

namespace Signing

open Text Crypto

/-! ## Reading keys and signatures -/

theorem parseKeyBytes_of_spells {role : KeyRole} {text : String} {bytes : List UInt8}
    (h : Hex.Spells (trim text) bytes) (hlength : bytes.length = keyLength) :
    parseKeyBytes role text = .ok bytes :=
  parseKeyBytes_eq_ok_iff.mpr ⟨hlength, h⟩

theorem parsePublicKey_of_spells {text : String} {key : List UInt8} {point : Ed25519.Point}
    (h : Hex.Spells (trim text) key) (hlength : key.length = keyLength)
    (hpoint : Ed25519.Point.decode? key = some point) : parsePublicKey text = .ok key := by
  unfold parsePublicKey
  -- Reading a point is kept closed: there is no end to computing with a key that is not known.
  obtain ⟨decode, hdecode⟩ : ∃ decode, decode = Ed25519.Point.decode? := ⟨_, rfl⟩
  rw [← hdecode] at hpoint ⊢
  simp only [parseKeyBytes_of_spells h hlength, hpoint]

/-- The texts a signature may come as: hexadecimal or base 64. -/
inductive Encodes (bytes : List UInt8) : String → Prop
  | hex : Encodes bytes (Hex.encode bytes)
  | base64 : Encodes bytes (Base64.encodeText bytes)

/-- **A signature is read in either encoding**, with blanks around it. -/
theorem parseSignature_of_padded {bytes : List UInt8} {core text : String}
    (hencodes : Encodes bytes core) (hpadded : Padded core text)
    (hlength : bytes.length = signatureLength) : parseSignature text = .ok bytes := by
  refine parseSignature_eq_ok_iff.mpr ⟨hlength, ?_⟩
  cases hencodes with
  | hex =>
    rw [trim_of_padded hpadded fun c hc => Hex.not_isBlank_of_mem_encode hc]
    exact .inl (Hex.spells_encode bytes)
  | base64 =>
    exact .inr (trim_of_padded hpadded fun c hc => Base64.not_isBlank_of_mem_encodeText hc)

theorem trimmedBytes_of_allBlank {text : String} (h : allBlank text = true) :
    trimmedBytes text = [] := by
  have hblank : dropBlanks text.toList = [] := dropBlanks_eq_nil (List.all_eq_true.mp h)
  rw [trimmedBytes, trim, trimChars, hblank]
  rfl

theorem not_allBlank_of_parsePublicKey {text : String} {key : List UInt8}
    (h : parsePublicKey text = .ok key) : allBlank text = false := by
  cases hblank : allBlank text with
  | false => rfl
  | true =>
    rw [parsePublicKey, parseKeyBytes, trimmedBytes_of_allBlank hblank] at h
    cases h

theorem not_allBlank_of_parseSignature {text : String} {bytes : List UInt8}
    (h : parseSignature text = .ok bytes) : allBlank text = false := by
  cases hblank : allBlank text with
  | false => rfl
  | true =>
    rw [parseSignature, trimmedBytes_of_allBlank hblank] at h
    cases h

/-- What is signed for is a request without a fault, if it asks for anything. -/
theorem fault?_of_isSigned {r : Request} (hamount : r.amount ≠ 0)
    (h : IsSigned r.amount r.destination r.signature) : r.fault? = none := by
  obtain ⟨key, bytes, hkey, hbytes, -⟩ := h
  rw [Request.fault?, if_neg hamount, not_allBlank_of_parsePublicKey hkey,
    not_allBlank_of_parseSignature hbytes]
  rfl

end Signing

/-- A reservation that is signed for and covered goes through on an idle ledger. -/
theorem Ledger.initiateVerified_of_isSigned {l : Ledger} {r : Request} (now : Nat)
    (hsigned : Signing.IsSigned r.amount r.destination r.signature) (hamount : r.amount ≠ 0)
    (hidle : l.pending = none) (hcovered : r.amount ≤ l.balance)
    (hroom : l.nextSequence.toNat + 1 < UInt64.size) :
    l.initiateVerified Signing.ed25519 now r
      = (.ok (l.operation now r), l.reserve (l.operation now r)) := by
  have hnone : l.objection? Signing.ed25519 r = none := by
    rw [objection?, Signing.fault?_of_isSigned hamount hsigned,
      Signing.ed25519_eq_ok_iff.mpr hsigned, hidle]
    exact if_neg (UInt64.not_lt.mpr hcovered)
  rw [initiateVerified_eq, hnone]
  exact if_pos hroom

namespace Signing

open Text Crypto

/-- **What is signed is accepted.** A secret key is read from its digits in either case. What is
signed with it, for a destination that spells the public key in letters of either case, passes the
verifier for the same destination, also where other blanks stand around it, and whichever of the two
encodings the signature comes in; and an idle ledger that can cover the amount reserves just that
amount for the destination as it was submitted. -/
theorem signed_is_accepted {secret : List UInt8} {amount : Sats} {signed submitted : String}
    (hsecret : secret.length = keyLength) (hamount : 0 < amount)
    (hdestination : Hex.Spells (trim submitted) (Ed25519.publicKey secret))
    (hsame : trim signed = trim submitted)
    (hkey : (Ed25519.Point.decode? (Ed25519.publicKey secret)).isSome)
    (hscheme : Ed25519.verify (Ed25519.publicKey secret) (digest amount signed)
      (Ed25519.sign secret (digest amount signed)) = true) :
    (∀ text, Hex.Spells (trim text) secret → parseSecretKey text = .ok secret ∧
      Command.signJob text amount signed = Command.Job.printLine (sign secret amount signed)) ∧
    Encodes (Ed25519.sign secret (digest amount signed)) (sign secret amount signed) ∧
    ∀ core signature, Encodes (Ed25519.sign secret (digest amount signed)) core →
      Padded core signature →
        let r : Request := { amount, destination := submitted, signature }
        ed25519 r = .ok () ∧ ∀ (l : Ledger) (now : Nat), l.pending = none → amount ≤ l.balance →
          l.nextSequence.toNat + 1 < UInt64.size → ∃ op after,
            l.initiateVerified ed25519 now r = (.ok op, after) ∧ after.pending = some op ∧
              op.amount = amount ∧ op.destination = submitted ∧
              after.balance = l.balance - amount := by
  refine ⟨?_, .hex, ?_⟩
  · intro text hspells
    have hread : parseSecretKey text = .ok secret := parseKeyBytes_of_spells hspells hsecret
    exact ⟨hread, by rw [Command.signJob, hread]⟩
  · intro core signature hencodes hpadded r
    obtain ⟨point, hpoint⟩ := Option.isSome_iff_exists.mp hkey
    -- Only the trimmed destination goes into the digest, and that is the same on both sides.
    have hdigest : digest amount submitted = digest amount signed := by
      rw [digest, digest, message, message, hsame]
    have hsigned : IsSigned r.amount r.destination r.signature := by
      refine ⟨_, _, parsePublicKey_of_spells hdestination (Ed25519.length_publicKey secret) hpoint,
        parseSignature_of_padded hencodes hpadded (Ed25519.length_sign _ _), ?_⟩
      show Ed25519.verify _ (digest amount submitted) _ = true
      rw [hdigest]
      exact hscheme
    refine ⟨ed25519_eq_ok_iff.mpr hsigned, ?_⟩
    intro l now hidle hcovered hroom
    have hpositive : r.amount ≠ 0 := by
      intro hzero
      rw [show amount = 0 from hzero] at hamount
      exact absurd hamount (by decide)
    exact ⟨_, _, Ledger.initiateVerified_of_isSigned now hsigned hpositive hidle hcovered hroom,
      rfl, rfl, rfl, rfl⟩

theorem signed_is_accepted_of_mixed_case :
    let secret := (List.range 32).map UInt8.ofNat
    let key := "03A107bff3ce10BE1d70dd18e74bc09967e4d6309ba50d5f1ddc8664125531b8"
    let signed := "\t" ++ key
    let submitted := key ++ "\u3000"
    let signature := Base64.encodeText (Ed25519.sign secret (digest 4 signed))
    secret.length = keyLength ∧ Hex.Spells (trim submitted) (Ed25519.publicKey secret) ∧
      trim signed = trim submitted ∧
      ed25519 { amount := 4, destination := submitted, signature := " " ++ signature ++ "\n" }
        = .ok () := by
  intro secret key signed submitted signature
  have hlength : secret.length = keyLength := by decide
  have hspells : Hex.Spells (trim submitted) (Ed25519.publicKey secret) := by decide +kernel
  have hsame : trim signed = trim submitted := by decide +kernel
  have hpositive : (0 : Sats) < 4 := by decide
  have haccepted := signed_is_accepted hlength hpositive hspells hsame (by decide +kernel)
    (by decide +kernel)
  have hpadded : Padded signature (" " ++ signature ++ "\n") := ⟨" ", "\n", rfl, rfl, rfl⟩
  exact ⟨hlength, hspells, hsame, (haccepted.2.2 _ _ .base64 hpadded).1⟩

end Signing
end RetirementVault
