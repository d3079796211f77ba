import RetirementVault.Text.Base64
import RetirementVault.Text.Blank
import RetirementVault.Text.Hex
import RetirementVault.Text.Utf8

/-!
# Bytes spelled as text

Hexadecimal may be spelled in letters of either case, base 64 in one way only. Both are read back
as the bytes they spell, `decode_of_spells` and `decode_encode`.

A reader that tries hexadecimal first never mistakes the one for the other where it matters:
base 64 that ends in padding is no hexadecimal, because a text that is hexadecimal has nothing but
digits in it.
-/

set_option autoImplicit false

namespace RetirementVault.Text

theorem utf8EncodeChar_of_ascii {c : Char} (h : c.toNat < 128) :
    String.utf8EncodeChar c = [UInt8.ofNat c.toNat] := by
  have hsmall : c.val.toNat ≤ 127 := Nat.lt_succ_iff.mp h
  rw [String.utf8EncodeChar, if_pos hsmall]
  rfl

/-! ## Blanks around a text -/

/-- A text with blanks on either side or none. -/
def Padded (core text : String) : Prop :=
  ∃ left right, allBlank left = true ∧ allBlank right = true ∧ text = left ++ core ++ right

/-- A text without blanks is left when the padding is trimmed. -/
theorem trim_of_padded {core text : String} (h : Padded core text)
    (hcore : ∀ c ∈ core.toList, isBlank c = false) : trim text = core := by
  obtain ⟨left, right, hleft, hright, rfl⟩ := h
  have hends : trimChars core.toList = core.toList := by
    apply trimChars_of_ends
    · intro c hc
      exact hcore c (List.mem_of_head? hc)
    · intro c hc
      exact hcore c (List.mem_of_getLast? hc)
  rw [trim, String.toList_append, String.toList_append,
    trimChars_padded core.toList (List.all_eq_true.mp hleft) (List.all_eq_true.mp hright), hends,
    String.ofList_toList]

/-! ## Hexadecimal -/

namespace Hex

/-- A text that spells bytes in hexadecimal, each digit in either case. -/
def Spells (text : String) (bytes : List UInt8) : Prop :=
  text.toList.map Char.toLower = encodeChars bytes

instance (text : String) (bytes : List UInt8) : Decidable (Spells text bytes) :=
  inferInstanceAs (Decidable (_ = _))

theorem toLower_cases {c d : Char} (h : c.toLower = d) :
    c = d ∨ 65 ≤ c.toNat ∧ c.toNat ≤ 90 ∧ d.toNat = c.toNat + 32 := by
  unfold Char.toLower at h
  split at h
  · next hupper =>
    right
    have hlow : 65 ≤ c.toNat := UInt32.le_iff_toNat_le.mp hupper.1
    have hhigh : c.toNat ≤ 90 := UInt32.le_iff_toNat_le.mp hupper.2
    refine ⟨hlow, hhigh, ?_⟩
    rw [← h]
    show (c.val + 32).toNat = c.val.toNat + 32
    rw [UInt32.toNat_add]
    apply Nat.mod_eq_of_lt
    show c.toNat + 32 < _
    omega
  · exact .inl h

theorem toNat_digitChar {n : Nat} (h : n < 16) :
    (Nat.digitChar n).toNat = if n < 10 then n + 48 else n + 87 := by
  revert n
  decide

/-- A digit in either case is one byte, and that byte has the digit's value. -/
theorem digitValue?_of_toLower {c : Char} {n : Nat} (hn : n < 16)
    (h : c.toLower = Nat.digitChar n) :
    String.utf8EncodeChar c = [UInt8.ofNat c.toNat] ∧
      digitValue? (UInt8.ofNat c.toNat) = some n := by
  have hdigit := toNat_digitChar hn
  have hplace : c.toNat = (if n < 10 then n + 48 else n + 87) ∨ 10 ≤ n ∧ c.toNat = n + 55 := by
    rcases toLower_cases h with rfl | ⟨hlow, hhigh, heq⟩
    · exact .inl hdigit
    · right
      split at hdigit
      · omega
      · omega
  have hsmall : c.toNat < 128 := by
    rcases hplace with hlower | hupper
    · split at hlower <;> omega
    · omega
  refine ⟨utf8EncodeChar_of_ascii hsmall, ?_⟩
  have hbyte : (UInt8.ofNat c.toNat).toNat = c.toNat :=
    UInt8.toNat_ofNat_of_lt (by simp only [UInt8.size]; omega)
  simp only [digitValue?, hbyte]
  rcases hplace with hlower | ⟨hten, hupper⟩
  · by_cases hten : n < 10
    · rw [if_pos hten] at hlower
      rw [if_pos (by omega), hlower, Nat.add_sub_cancel]
    · rw [if_neg hten] at hlower
      rw [if_neg (by omega), if_pos (by omega), hlower, Nat.add_sub_cancel]
  · rw [if_neg (by omega), if_neg (by omega), if_pos (by omega), hupper, Nat.add_sub_cancel]

theorem byte_of_halves (b : UInt8) : UInt8.ofNat (16 * (b.toNat / 16) + b.toNat % 16) = b := by
  rw [Nat.div_add_mod, UInt8.ofNat_toNat]

theorem decodeFrom_of_spells {cs : List Char} {bytes : List UInt8} (place : Nat)
    (h : cs.map Char.toLower = encodeChars bytes) :
    decodeFrom place (Utf8.encodeChars cs) = .ok bytes ∧
      (Utf8.encodeChars cs).length = 2 * bytes.length := by
  induction bytes generalizing cs place with
  | nil =>
    obtain rfl := List.map_eq_nil_iff.mp h
    exact ⟨rfl, rfl⟩
  | cons b bytes ih =>
    obtain ⟨high, cs, rfl, hhigh, h⟩ := List.map_eq_cons_iff.mp h
    obtain ⟨low, cs, rfl, hlow, h⟩ := List.map_eq_cons_iff.mp h
    have hb := b.toNat_lt
    obtain ⟨hhigh, hhighValue⟩ := digitValue?_of_toLower (by omega) hhigh
    obtain ⟨hlow, hlowValue⟩ := digitValue?_of_toLower (by omega) hlow
    obtain ⟨hrest, hlength⟩ := ih (place + 2) h
    have hbytes : Utf8.encodeChars (high :: low :: cs)
        = UInt8.ofNat high.toNat :: UInt8.ofNat low.toNat :: Utf8.encodeChars cs := by
      simp only [Utf8.encodeChars, List.flatMap_cons, hhigh, hlow]
      rfl
    rw [hbytes, decodeFrom, readDigit, readDigit, hhighValue, hlowValue, hrest]
    constructor
    · show Except.ok (_ :: bytes) = _
      rw [byte_of_halves]
    · simp only [List.length_cons, hlength]
      omega

/-- **Hexadecimal in either case is read back.** -/
theorem decode_of_spells {text : String} {bytes : List UInt8} (h : Spells text bytes) :
    decode (Utf8.encode text) = .ok bytes := by
  obtain ⟨hdecode, hlength⟩ := decodeFrom_of_spells 0 h
  rw [decode, Utf8.encode, hlength, if_neg (by omega), hdecode]

theorem isBlank_digitChar {n : Nat} (h : n < 16) : isBlank (Nat.digitChar n) = false := by
  revert n
  decide

theorem toLower_digitChar {n : Nat} (h : n < 16) :
    (Nat.digitChar n).toLower = Nat.digitChar n := by
  revert n
  decide

theorem mem_encodeChars {bytes : List UInt8} {c : Char} (h : c ∈ encodeChars bytes) :
    ∃ n < 16, c = Nat.digitChar n := by
  obtain ⟨b, _, hc⟩ := List.mem_flatMap.mp h
  have hb := b.toNat_lt
  simp only [byteDigits, List.mem_cons, List.not_mem_nil, or_false] at hc
  rcases hc with rfl | rfl
  · exact ⟨_, by omega, rfl⟩
  · exact ⟨_, by omega, rfl⟩

/-- What is written spells what it was written from. -/
theorem spells_encode (bytes : List UInt8) : Spells (encode bytes) bytes := by
  unfold Spells encode
  rw [String.toList_ofList]
  conv => rhs; rw [← List.map_id (encodeChars bytes)]
  apply List.map_congr_left
  intro c hc
  obtain ⟨n, hn, rfl⟩ := mem_encodeChars hc
  exact toLower_digitChar hn

theorem not_isBlank_of_mem_encode {bytes : List UInt8} {c : Char}
    (h : c ∈ (encode bytes).toList) : isBlank c = false := by
  rw [encode, String.toList_ofList] at h
  obtain ⟨n, hn, rfl⟩ := mem_encodeChars h
  exact isBlank_digitChar hn

theorem readDigit_eq_ok {b : UInt8} {place n : Nat} (h : readDigit b place = .ok n) :
    digitValue? b = some n := by
  unfold readDigit at h
  split at h
  · next hvalue => rw [hvalue, Except.ok.inj h]
  · exact nomatch h

/-- Digits are read in pairs. -/
theorem decodeFrom_cons_eq_ok {place : Nat} {a b : UInt8} {rest bytes : List UInt8}
    (h : decodeFrom place (a :: b :: rest) = .ok bytes) :
    ∃ high low more, digitValue? a = some high ∧ digitValue? b = some low ∧
      decodeFrom (place + 2) rest = .ok more ∧ bytes = UInt8.ofNat (16 * high + low) :: more := by
  rw [decodeFrom] at h
  obtain ⟨high, hhigh, h⟩ := bind_eq_ok.mp h
  obtain ⟨low, hlow, h⟩ := bind_eq_ok.mp h
  obtain ⟨more, hmore, h⟩ := bind_eq_ok.mp h
  exact ⟨high, low, more, readDigit_eq_ok hhigh, readDigit_eq_ok hlow, hmore,
    (Except.ok.inj h).symm⟩

theorem digits_of_decodeFrom {text bytes : List UInt8} {place : Nat}
    (h : decodeFrom place text = .ok bytes) : ∀ b ∈ text, (digitValue? b).isSome = true := by
  fun_induction decodeFrom place text generalizing bytes with
  | case1 => exact fun b hb => nomatch hb
  | case2 => exact nomatch h
  | case3 place a b rest ih =>
    obtain ⟨high, low, more, ha, hb, hrest, -⟩ := decodeFrom_cons_eq_ok h
    intro x hx
    rcases List.mem_cons.mp hx with rfl | hx
    · rw [ha]; rfl
    · rcases List.mem_cons.mp hx with rfl | hx
      · rw [hb]; rfl
      · exact ih hrest x hx

/-- What is read as hexadecimal has nothing but digits in it. -/
theorem digits_of_decode {text bytes : List UInt8} (h : decode text = .ok bytes) :
    ∀ b ∈ text, (digitValue? b).isSome = true := by
  unfold decode at h
  split at h
  · exact nomatch h
  · exact digits_of_decodeFrom h

end Hex

/-! ## Base 64 -/

namespace Base64

/-- The text of some bytes, as characters. -/
def encodeText (bytes : List UInt8) : String :=
  String.ofList ((encode bytes).map fun b => Char.ofNat b.toNat)

theorem symbolValue?_symbol {n : Nat} (h : n < 64) : symbolValue? (symbol n) = some n := by
  revert n
  decide

theorem symbol_ne_pad {n : Nat} (h : n < 64) : symbol n ≠ pad := by
  revert n
  decide

theorem readSymbol_symbol {n : Nat} (h : n < 64) (place : Nat) :
    readSymbol (symbol n) place = .ok n := by
  rw [readSymbol, symbolValue?_symbol h]

/-- The four groups of six bits that three bytes are cut into, put together again. -/
theorem threeBytes_cut (a b c : UInt8) :
    threeBytes (a.toNat / 4) (a.toNat % 4 * 16 + b.toNat / 16) (b.toNat % 16 * 4 + c.toNat / 64)
      (c.toNat % 64) = [a, b, c] := by
  have ha := a.toNat_lt
  have hb := b.toNat_lt
  have hc := c.toNat_lt
  have hfirst : a.toNat / 4 * 4 + (a.toNat % 4 * 16 + b.toNat / 16) / 16 = a.toNat := by omega
  have hsecond : (a.toNat % 4 * 16 + b.toNat / 16) % 16 * 16
      + (b.toNat % 16 * 4 + c.toNat / 64) / 4 = b.toNat := by omega
  have hthird : (b.toNat % 16 * 4 + c.toNat / 64) % 4 * 64 + c.toNat % 64 = c.toNat := by omega
  rw [threeBytes, hfirst, hsecond, hthird, UInt8.ofNat_toNat, UInt8.ofNat_toNat, UInt8.ofNat_toNat]

theorem splitGroup_symbol {n : Nat} (h : n < 64) (start place : Nat) (symbols : List Nat)
    (rest : List UInt8) :
    splitGroup start place symbols (symbol n :: rest)
      = splitGroup start (place + 1) (symbols ++ [n]) rest := by
  rw [splitGroup, if_neg (symbol_ne_pad h), readSymbol_symbol h]
  rfl

theorem decodeLast_one (start : Nat) (a : UInt8) :
    decodeLast start (encode [a]) = .ok [a] := by
  have ha := a.toNat_lt
  have hfirst : a.toNat / 4 * 4 + a.toNat % 4 * 16 / 16 = a.toNat := by omega
  have hspare : a.toNat % 4 * 16 % 16 = 0 := Nat.mul_mod_left _ _
  have hsplit : splitGroup start 0 [] (encode [a])
      = .ok ([a.toNat / 4, a.toNat % 4 * 16], 2) := by
    rw [encode, splitGroup_symbol (by omega), splitGroup_symbol (by omega)]
    rfl
  rw [decodeLast, hsplit]
  show (if a.toNat % 4 * 16 % 16 = 0 then _ else _) = _
  rw [if_pos hspare, threeBytes, hfirst, UInt8.ofNat_toNat]
  rfl

theorem decodeLast_two (start : Nat) (a b : UInt8) :
    decodeLast start (encode [a, b]) = .ok [a, b] := by
  have ha := a.toNat_lt
  have hb := b.toNat_lt
  have hspare : b.toNat % 16 * 4 % 4 = 0 := Nat.mul_mod_left _ _
  have hsplit : splitGroup start 0 [] (encode [a, b])
      = .ok ([a.toNat / 4, a.toNat % 4 * 16 + b.toNat / 16, b.toNat % 16 * 4], 1) := by
    rw [encode, splitGroup_symbol (by omega), splitGroup_symbol (by omega),
      splitGroup_symbol (by omega)]
    rfl
  rw [decodeLast, hsplit]
  show (if b.toNat % 16 * 4 % 4 = 0 then _ else _) = _
  rw [if_pos hspare]
  exact congrArg (fun bytes => Except.ok (bytes.take 2)) (threeBytes_cut a b 0)

theorem decodeLast_three (start : Nat) (a b c : UInt8) :
    decodeLast start (encode [a, b, c]) = .ok [a, b, c] := by
  have ha := a.toNat_lt
  have hb := b.toNat_lt
  have hc := c.toNat_lt
  have hsplit : splitGroup start 0 [] (encode [a, b, c])
      = .ok ([a.toNat / 4, a.toNat % 4 * 16 + b.toNat / 16, b.toNat % 16 * 4 + c.toNat / 64,
          c.toNat % 64], 0) := by
    rw [encode, splitGroup_symbol (by omega), splitGroup_symbol (by omega),
      splitGroup_symbol (by omega), splitGroup_symbol (by omega)]
    rfl
  rw [decodeLast, hsplit]
  exact congrArg Except.ok (threeBytes_cut a b c)

theorem exists_of_encode_cons (a : UInt8) (bytes : List UInt8) :
    ∃ e more, encode (a :: bytes) = e :: more := by
  match bytes with
  | [] | [_] | _ :: _ :: _ => exact ⟨_, _, rfl⟩

/-- Groups of four are taken off the front as they were put there. -/
theorem decodeFrom_encode (start : Nat) (bytes : List UInt8) :
    decodeFrom start (encode bytes) = .ok bytes := by
  fun_induction encode bytes generalizing start with
  | case1 => rfl
  | case2 a => exact decodeLast_one start a
  | case3 a b => exact decodeLast_two start a b
  | case4 a b c rest ih =>
    cases rest with
    | nil => exact decodeLast_three start a b c
    | cons d rest =>
      have ha := a.toNat_lt
      have hb := b.toNat_lt
      have hc := c.toNat_lt
      have hrest := ih (start + 4)
      obtain ⟨e, more, hmore⟩ := exists_of_encode_cons d rest
      rw [hmore] at hrest ⊢
      rw [decodeFrom, readSymbol_symbol (by omega), readSymbol_symbol (by omega),
        readSymbol_symbol (by omega), readSymbol_symbol (by omega), hrest]
      exact congrArg (fun bytes => Except.ok (bytes ++ d :: rest)) (threeBytes_cut a b c)

theorem length_encode_mod (bytes : List UInt8) : (encode bytes).length % 4 = 0 := by
  fun_induction encode bytes with
  | case1 => rfl
  | case2 | case3 => exact Nat.mod_self 4
  | case4 a b c rest ih =>
    simp only [List.length_cons]
    omega

/-- **Base 64 is read back.** -/
theorem decode_encode (bytes : List UInt8) : decode (encode bytes) = .ok bytes := by
  have hlength := length_encode_mod bytes
  unfold decode
  split
  · rw [if_neg (by omega), decodeFrom_encode]
  · next hlast =>
    rw [← decodeFrom_encode 0 bytes, List.getLast?_eq_none_iff.mp hlast]
    rfl

/-- Where the bytes do not come in threes there is padding. -/
theorem pad_mem_encode {bytes : List UInt8} (h : bytes.length % 3 ≠ 0) : pad ∈ encode bytes := by
  fun_induction encode bytes with
  | case1 => exact absurd rfl h
  | case2 | case3 => simp
  | case4 a b c rest ih =>
    have hrest : rest.length % 3 ≠ 0 := by
      simp only [List.length_cons] at h
      omega
    simp [ih hrest]

/-- What ends in padding is no hexadecimal. -/
theorem hex_decode_encode {bytes : List UInt8} (h : bytes.length % 3 ≠ 0) :
    ∃ why, Hex.decode (encode bytes) = .error why := by
  cases hdecode : Hex.decode (encode bytes) with
  | error why => exact ⟨why, rfl⟩
  | ok read =>
    have hdigit := Hex.digits_of_decode hdecode pad (pad_mem_encode h)
    exact absurd hdigit (by decide)

theorem mem_encode {bytes : List UInt8} {b : UInt8} (h : b ∈ encode bytes) :
    b = pad ∨ ∃ n < 64, b = symbol n := by
  have hsymbol {n : Nat} (hb : b = symbol n) (hn : n < 64) : b = pad ∨ ∃ n < 64, b = symbol n :=
    .inr ⟨n, hn, hb⟩
  fun_induction encode bytes with
  | case1 => exact nomatch h
  | case2 a =>
    have ha := a.toNat_lt
    simp only [List.mem_cons, List.not_mem_nil, or_false] at h
    rcases h with h | h | h | h
    · exact hsymbol h (by omega)
    · exact hsymbol h (by omega)
    · exact .inl h
    · exact .inl h
  | case3 a b' =>
    have ha := a.toNat_lt
    have hb := b'.toNat_lt
    simp only [List.mem_cons, List.not_mem_nil, or_false] at h
    rcases h with h | h | h | h
    · exact hsymbol h (by omega)
    · exact hsymbol h (by omega)
    · exact hsymbol h (by omega)
    · exact .inl h
  | case4 a b' c rest ih =>
    have ha := a.toNat_lt
    have hb := b'.toNat_lt
    have hc := c.toNat_lt
    simp only [List.mem_cons] at h
    rcases h with h | h | h | h | h
    · exact hsymbol h (by omega)
    · exact hsymbol h (by omega)
    · exact hsymbol h (by omega)
    · exact hsymbol h (by omega)
    · exact ih h

/-- Every byte of base 64 is an ASCII character and not a blank one. -/
theorem ascii_of_mem_encode {bytes : List UInt8} {b : UInt8} (h : b ∈ encode bytes) :
    b.toNat < 128 ∧ isBlank (Char.ofNat b.toNat) = false := by
  rcases mem_encode h with rfl | ⟨n, hn, rfl⟩
  · decide
  · clear h
    revert n
    decide

theorem encodeChars_of_ascii {bytes : List UInt8} (h : ∀ b ∈ bytes, b.toNat < 128) :
    Utf8.encodeChars (bytes.map fun b => Char.ofNat b.toNat) = bytes := by
  induction bytes with
  | nil => rfl
  | cons b bytes ih =>
    have hb := h b (List.mem_cons_self ..)
    have hchar : (Char.ofNat b.toNat).toNat = b.toNat := by
      rw [Char.ofNat, dif_pos (.inl (by omega))]
      rfl
    have hfirst : String.utf8EncodeChar (Char.ofNat b.toNat) = [b] := by
      rw [utf8EncodeChar_of_ascii (by omega), hchar, UInt8.ofNat_toNat]
    have hrest := ih fun x hx => h x (List.mem_cons_of_mem _ hx)
    rw [Utf8.encodeChars] at hrest ⊢
    rw [List.map_cons, List.flatMap_cons, hfirst, hrest, List.singleton_append]

theorem utf8_encodeText (bytes : List UInt8) : Utf8.encode (encodeText bytes) = encode bytes := by
  rw [Utf8.encode, encodeText, String.toList_ofList]
  exact encodeChars_of_ascii fun b hb => (ascii_of_mem_encode hb).1

theorem not_isBlank_of_mem_encodeText {bytes : List UInt8} {c : Char}
    (h : c ∈ (encodeText bytes).toList) : isBlank c = false := by
  rw [encodeText, String.toList_ofList] at h
  obtain ⟨b, hb, rfl⟩ := List.mem_map.mp h
  exact (ascii_of_mem_encode hb).2

end Base64
end RetirementVault.Text
