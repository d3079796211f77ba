import RetirementVault.Proofs.Text.Reading
import RetirementVault.Signing.Key

/-!
# Which texts are keys and signatures

A signature may come in hexadecimal or in base 64, and the reader tries the one before the other.
The two alphabets overlap, so a text could be taken for the wrong one; but a signature has a length
that base 64 has to pad, and padding is no digit. So each text stands for at most one signature and
is read as that one, whichever way it is encoded, and every other text is refused
(`parseSignature_eq_ok_iff`). A key comes in hexadecimal only (`parseKeyBytes_eq_ok_iff`).
-/

set_option autoImplicit false

namespace RetirementVault.Signing

open Text

/-- A text that stands for a signature: without the blanks around it it is the bytes in hexadecimal,
each digit in either case, or in base 64. -/
def Denotes (text : String) (bytes : List UInt8) : Prop :=
  bytes.length = signatureLength ∧
    (Hex.Spells (trim text) bytes ∨ trim text = Base64.encodeText bytes)

theorem decodeSignature_eq_ok {text : String} {bytes : List UInt8}
    (h : decodeSignature (Utf8.encode text) = .ok bytes) :
    Hex.Spells text bytes ∨ text = Base64.encodeText bytes := by
  unfold decodeSignature at h
  split at h
  · next hhex =>
    obtain rfl := Except.ok.inj h
    exact .inl (Hex.decode_eq_ok_iff.mp hhex)
  · split at h
    · next hbase =>
      obtain rfl := Except.ok.inj h
      exact .inr (Base64.utf8_eq_encode_iff.mp (Base64.decode_eq_ok_iff.mp hbase))
    · exact nomatch h

theorem decodeSignature_of_denotes {text : String} {bytes : List UInt8}
    (h : Denotes text bytes) : decodeSignature (trimmedBytes text) = .ok bytes := by
  obtain ⟨hlength, hspells | htext⟩ := h
  · rw [decodeSignature, trimmedBytes, Hex.decode_of_spells hspells]
  · -- A signature does not come in threes of bytes, so it is not taken for hexadecimal.
    have hodd : bytes.length % 3 ≠ 0 := by
      rw [hlength]
      decide
    obtain ⟨why, hhex⟩ := Base64.hex_decode_encode hodd
    rw [decodeSignature, trimmedBytes, htext, Base64.utf8_encodeText, hhex, Base64.decode_encode]

/-- **A signature is read from the texts that stand for it, and from no others.** -/
theorem parseSignature_eq_ok_iff {text : String} {bytes : List UInt8} :
    parseSignature text = .ok bytes ↔ Denotes text bytes := by
  constructor
  · intro h
    unfold parseSignature at h
    split at h
    · exact nomatch h
    · next hdecode =>
      split at h
      · next hlength =>
        obtain rfl := Except.ok.inj h
        exact ⟨hlength, decodeSignature_eq_ok hdecode⟩
      · exact nomatch h
  · intro h
    rw [parseSignature, decodeSignature_of_denotes h]
    exact if_pos h.1

/-- A text stands for one signature, whether it is taken for hexadecimal or for base 64. -/
theorem Denotes.unique {text : String} {bytes other : List UInt8} (h : Denotes text bytes)
    (hother : Denotes text other) : bytes = other :=
  Except.ok.inj ((parseSignature_eq_ok_iff.mpr h).symm.trans (parseSignature_eq_ok_iff.mpr hother))

/-- **A key is read from its digits in either case, and from nothing else.** -/
theorem parseKeyBytes_eq_ok_iff {role : KeyRole} {text : String} {key : List UInt8} :
    parseKeyBytes role text = .ok key ↔ key.length = keyLength ∧ Hex.Spells (trim text) key := by
  constructor
  · intro h
    unfold parseKeyBytes at h
    split at h
    · exact nomatch h
    · next hdecode =>
      split at h
      · next hlength =>
        obtain rfl := Except.ok.inj h
        exact ⟨hlength, Hex.decode_eq_ok_iff.mp hdecode⟩
      · exact nomatch h
  · rintro ⟨hlength, hspells⟩
    rw [parseKeyBytes, trimmedBytes, Hex.decode_of_spells hspells]
    exact if_pos hlength

/-- **Signatures and keys are read from just the encodings meant for them.** A text is read as a
signature exactly if it is the signature's 64 bytes in hexadecimal or in base 64, and no text is
that of two signatures. A text is read as a secret key exactly if it is 64 hexadecimal digits in
either case, with blanks around them or not, and the key is the bytes that they spell. -/
theorem texts_denote_their_bytes :
    (∀ text bytes, parseSignature text = .ok bytes ↔ Denotes text bytes) ∧
    (∀ text bytes other, Denotes text bytes → Denotes text other → bytes = other) ∧
    (∀ text, (∃ key, parseSecretKey text = .ok key) ↔
      (trim text).length = 64 ∧ ∀ c ∈ (trim text).toList, c ∈ Hex.digits) ∧
    (∀ text key, parseSecretKey text = .ok key ↔
      key.length = keyLength ∧ Hex.Spells (trim text) key) := by
  refine ⟨fun _ _ => parseSignature_eq_ok_iff, fun _ _ _ => Denotes.unique, fun text => ?_,
    fun _ _ => parseKeyBytes_eq_ok_iff⟩
  have hsome : (∃ key, parseSecretKey text = .ok key) ↔
      ∃ key, key.length = keyLength ∧ Hex.Spells (trim text) key :=
    exists_congr fun key => parseKeyBytes_eq_ok_iff
  exact hsome.trans Hex.exists_spells_iff

end RetirementVault.Signing
