/-!
# UTF-8

Text as bytes and bytes as text. Decoding never fails as a whole: a byte that starts no character
stands for itself as `none`, so a reader can pass over a damaged stretch it does not need and
refuse one it does.

The one fact: what was encoded decodes to its own characters (`decode_encode`).
-/

namespace RetirementVault.Text.Utf8

def encodeChars (s : List Char) : List UInt8 :=
  s.flatMap String.utf8EncodeChar

def encode (s : String) : List UInt8 :=
  encodeChars s.toList

/-- The character the bytes start with, if they start with one. No character takes more than four
bytes. -/
def first? (bytes : List UInt8) : Option Char :=
  (bytes.take 4).toByteArray.utf8DecodeChar? 0

/-- The characters of some bytes after so many have been passed over, with `none` for each byte
that starts no character. -/
def decodeAfter : Nat → List UInt8 → List (Option Char)
  | _, [] => []
  | skip + 1, _ :: bytes => decodeAfter skip bytes
  | 0, b :: bytes =>
    match first? (b :: bytes) with
    | some c => some c :: decodeAfter (c.utf8Size - 1) bytes
    | none => none :: decodeAfter 0 bytes

/-- The characters of some bytes, with `none` for each byte that starts no character. -/
def decode (bytes : List UInt8) : List (Option Char) :=
  decodeAfter 0 bytes

/-- The text some bytes spell, if they are UTF-8 throughout. -/
def text? (bytes : List UInt8) : Option String :=
  ((decode bytes).mapM id).map String.ofList

/-! ## What was encoded -/

theorem first?_encode (c : Char) (rest : List UInt8) :
    first? (String.utf8EncodeChar c ++ rest) = some c := by
  have h : (String.utf8EncodeChar c).length ≤ 4 := by
    rw [String.length_utf8EncodeChar]
    exact c.utf8Size_le_four
  unfold first?
  rw [List.take_append, List.take_of_length_le h, List.toByteArray_append]
  exact ByteArray.utf8DecodeChar?_utf8EncodeChar_append

theorem decodeAfter_length (l rest : List UInt8) :
    decodeAfter l.length (l ++ rest) = decodeAfter 0 rest := by
  induction l with
  | nil => rfl
  | cons b l ih => simpa [decodeAfter] using ih

theorem decode_encodeChar (c : Char) (rest : List UInt8) :
    decode (String.utf8EncodeChar c ++ rest) = some c :: decode rest := by
  have hlen := String.length_utf8EncodeChar c
  have hfirst := first?_encode c rest
  unfold decode
  cases h : String.utf8EncodeChar c with
  | nil =>
    rw [h] at hlen
    exact absurd hlen.symm (Nat.ne_of_gt c.utf8Size_pos)
  | cons b l =>
    rw [h, List.cons_append] at hfirst
    rw [List.cons_append, decodeAfter, hfirst]
    have hl : c.utf8Size - 1 = l.length := by
      rw [← hlen, h]
      rfl
    simp only [hl, decodeAfter_length]

/-- **Encoding loses nothing.** -/
theorem decode_encodeChars (s : List Char) : decode (encodeChars s) = s.map some := by
  induction s with
  | nil => rfl
  | cons c s ih =>
    rw [encodeChars, List.flatMap_cons, decode_encodeChar]
    exact congrArg _ ih

theorem decode_encode (s : String) : decode (encode s) = s.toList.map some :=
  decode_encodeChars s.toList

end RetirementVault.Text.Utf8
