import RetirementVault.Proofs.Text.Spelling

/-!
# What is read has been spelled

`Spelling` goes from bytes to a text and back to the bytes; this file goes from a text that is read
to how it must have been spelled. With the two together each reader accepts exactly the texts it is
meant for: hexadecimal is read from digits in either case (`Hex.decode_eq_ok_iff`), and base 64
from the one text that is written for the bytes (`Base64.decode_eq_ok_iff`).

The readers see bytes and a spelling has characters, and the two meet because every byte that is
read is an ASCII character (`Utf8.chars_of_ascii`).
-/

set_option autoImplicit false

namespace RetirementVault.Text

/-! ## Characters and their bytes -/

/-- Characters with the same bytes are the same characters. -/
theorem Utf8.encodeChars_inj {cs ds : List Char} : encodeChars cs = encodeChars ds ↔ cs = ds := by
  constructor
  · intro h
    have hdecoded := congrArg decode h
    rw [decode_encodeChars, decode_encodeChars] at hdecoded
    exact List.map_inj_right (fun _ _ => Option.some.inj) |>.mp hdecoded
  · rintro rfl
    rfl

/-- Texts with the same bytes are the same text. -/
theorem Utf8.encode_inj {s t : String} : encode s = encode t ↔ s = t :=
  encodeChars_inj.trans String.toList_inj

/-- A text whose bytes are all ASCII is those bytes as characters. -/
theorem Utf8.chars_of_ascii {cs : List Char} (h : ∀ b ∈ encodeChars cs, b.toNat < 128) :
    cs = (encodeChars cs).map fun b => Char.ofNat b.toNat :=
  encodeChars_inj.mp (Base64.encodeChars_of_ascii h).symm

/-! ## Hexadecimal -/

namespace Hex

/-- A byte that has the value of a digit is that digit in one of its cases. -/
theorem toLower_of_digitValue? {b : UInt8} {n : Nat} (h : digitValue? b = some n) :
    n < 16 ∧ b.toNat < 128 ∧ (Char.ofNat b.toNat).toLower = Nat.digitChar n := by
  have hfigure : ∀ m < 10, (Char.ofNat (m + 48)).toLower = Nat.digitChar m := by decide
  have hsmall : ∀ m < 16, 10 ≤ m → (Char.ofNat (m + 87)).toLower = Nat.digitChar m := by decide
  have hcapital : ∀ m < 16, 10 ≤ m → (Char.ofNat (m + 55)).toLower = Nat.digitChar m := by decide
  simp only [digitValue?] at h
  split at h
  · obtain rfl := Option.some.inj h
    have hlower := hfigure (b.toNat - 48) (by omega)
    rw [Nat.sub_add_cancel (by omega)] at hlower
    exact ⟨by omega, by omega, hlower⟩
  split at h
  · obtain rfl := Option.some.inj h
    have hlower := hsmall (b.toNat - 87) (by omega) (by omega)
    rw [Nat.sub_add_cancel (by omega)] at hlower
    exact ⟨by omega, by omega, hlower⟩
  split at h
  · obtain rfl := Option.some.inj h
    have hlower := hcapital (b.toNat - 55) (by omega) (by omega)
    rw [Nat.sub_add_cancel (by omega)] at hlower
    exact ⟨by omega, by omega, hlower⟩
  · exact absurd h (by simp)

theorem byteDigits_ofNat {high low : Nat} (hhigh : high < 16) (hlow : low < 16) :
    byteDigits (UInt8.ofNat (16 * high + low)) = [Nat.digitChar high, Nat.digitChar low] := by
  have hbyte : (UInt8.ofNat (16 * high + low)).toNat = 16 * high + low :=
    UInt8.toNat_ofNat_of_lt (by simp only [UInt8.size]; omega)
  have hfirst : (16 * high + low) / 16 = high := by omega
  have hsecond : (16 * high + low) % 16 = low := by omega
  rw [byteDigits, hbyte, hfirst, hsecond]

/-- What is read in pairs is digits in pairs. -/
theorem toLower_of_decodeFrom {text bytes : List UInt8} {place : Nat}
    (h : decodeFrom place text = .ok bytes) :
    (∀ b ∈ text, b.toNat < 128) ∧
      (text.map fun b => (Char.ofNat b.toNat).toLower) = encodeChars bytes := by
  fun_induction decodeFrom place text generalizing bytes with
  | case1 =>
    obtain rfl := Except.ok.inj h
    exact ⟨List.forall_mem_nil _, rfl⟩
  | case2 => cases h
  | case3 place a b rest ih =>
    obtain ⟨high, low, more, ha, hb, hrest, rfl⟩ := decodeFrom_cons_eq_ok h
    obtain ⟨hhigh, hasmall, halower⟩ := toLower_of_digitValue? ha
    obtain ⟨hlow, hbsmall, hblower⟩ := toLower_of_digitValue? hb
    obtain ⟨hsmall, hlower⟩ := ih hrest
    constructor
    · simp only [List.mem_cons]
      rintro x (rfl | rfl | hx)
      · exact hasmall
      · exact hbsmall
      · exact hsmall x hx
    · rw [List.map_cons, List.map_cons, halower, hblower, hlower, encodeChars, encodeChars,
        List.flatMap_cons, byteDigits_ofNat hhigh hlow]
      rfl

/-- **Hexadecimal is read from its digits in either case, and from nothing else.** -/
theorem decode_eq_ok_iff {text : String} {bytes : List UInt8} :
    decode (Utf8.encode text) = .ok bytes ↔ Spells text bytes := by
  refine ⟨fun h => ?_, decode_of_spells⟩
  unfold decode at h
  split at h
  · exact nomatch h
  · obtain ⟨hascii, hlower⟩ := toLower_of_decodeFrom h
    rw [Spells, Utf8.chars_of_ascii hascii, List.map_map]
    exact hlower

/-- The digits, those above nine in both cases. -/
def digits : List Char :=
  "0123456789abcdefABCDEF".toList

theorem mem_digits_iff {c : Char} : c ∈ digits ↔ ∃ n < 16, c.toLower = Nat.digitChar n := by
  constructor
  · intro h
    -- Over the list: over all characters a decision would take as many steps as there are of them.
    have hall : digits.all (fun d => d.toLower ∈ (List.range 16).map Nat.digitChar) = true := by
      decide
    have hc := of_decide_eq_true (List.all_eq_true.mp hall c h)
    obtain ⟨n, hn, hdigit⟩ := List.mem_map.mp hc
    exact ⟨n, List.mem_range.mp hn, hdigit.symm⟩
  · rintro ⟨n, hn, hlower⟩
    have hsmall : ∀ m < 16, Nat.digitChar m ∈ digits := by decide
    have hcapital : ∀ m < 16, 65 + 32 ≤ (Nat.digitChar m).toNat →
        Char.ofNat ((Nat.digitChar m).toNat - 32) ∈ digits := by decide
    rcases toLower_cases hlower with rfl | ⟨hlow, -, heq⟩
    · exact hsmall n hn
    · have hc := hcapital n hn (by omega)
      rwa [heq, Nat.add_sub_cancel, Char.ofNat_toNat] at hc

theorem length_encodeChars (bytes : List UInt8) :
    (encodeChars bytes).length = 2 * bytes.length := by
  induction bytes with
  | nil => rfl
  | cons b bytes ih =>
    rw [encodeChars, List.flatMap_cons, List.length_append]
    rw [encodeChars] at ih
    rw [ih, List.length_cons]
    simp only [byteDigits, List.length_cons, List.length_nil]
    omega

theorem exists_toLower_eq (k : Nat) {cs : List Char} (hlength : cs.length = 2 * k)
    (hdigits : ∀ c ∈ cs, c ∈ digits) :
    ∃ bytes : List UInt8, bytes.length = k ∧ cs.map Char.toLower = encodeChars bytes := by
  -- On the number of bytes, two digits at a time.
  induction k generalizing cs with
  | zero =>
    obtain rfl := List.eq_nil_of_length_eq_zero hlength
    exact ⟨[], rfl, rfl⟩
  | succ k ih =>
    match cs with
    | [] | [_] =>
      simp only [List.length_cons, List.length_nil] at hlength
      omega
    | a :: b :: rest =>
      obtain ⟨high, hhigh, ha⟩ := mem_digits_iff.mp (hdigits a (by simp))
      obtain ⟨low, hlow, hb⟩ := mem_digits_iff.mp (hdigits b (by simp))
      have hrest : rest.length = 2 * k := by
        simp only [List.length_cons] at hlength
        omega
      obtain ⟨bytes, hbytes, hmore⟩ := ih hrest fun c hc => hdigits c (by simp [hc])
      refine ⟨UInt8.ofNat (16 * high + low) :: bytes, by rw [List.length_cons, hbytes], ?_⟩
      rw [List.map_cons, List.map_cons, ha, hb, hmore, encodeChars, encodeChars,
        List.flatMap_cons, byteDigits_ofNat hhigh hlow]
      rfl

/-- **So many bytes are spelled by twice as many digits**, whichever they are. -/
theorem exists_spells_iff {text : String} {k : Nat} :
    (∃ bytes, bytes.length = k ∧ Spells text bytes) ↔
      text.length = 2 * k ∧ ∀ c ∈ text.toList, c ∈ digits := by
  rw [← String.length_toList]
  constructor
  · rintro ⟨bytes, rfl, hspells⟩
    refine ⟨?_, fun c hc => ?_⟩
    · have hlength := congrArg List.length hspells
      rwa [List.length_map, length_encodeChars] at hlength
    · have hmem : c.toLower ∈ encodeChars bytes := hspells ▸ List.mem_map_of_mem hc
      exact mem_digits_iff.mpr (mem_encodeChars hmem)
  · rintro ⟨hlength, hdigits⟩
    exact exists_toLower_eq k hlength hdigits

end Hex

/-! ## Base 64 -/

namespace Base64

theorem symbol_of_symbolValue? {b : UInt8} {n : Nat} (h : symbolValue? b = some n) :
    n < 64 ∧ symbol n = b := by
  have hvalue : n < 64 ∧ (if n < 26 then n + 65 else if n < 52 then n + 71
      else if n < 62 then n - 4 else if n = 62 then 43 else 47) = b.toNat := by
    simp only [symbolValue?] at h
    grind
  rw [symbol, hvalue.2, UInt8.ofNat_toNat]
  exact ⟨hvalue.1, rfl⟩

theorem readSymbol_eq_ok {b : UInt8} {place n : Nat} (h : readSymbol b place = .ok n) :
    n < 64 ∧ symbol n = b := by
  unfold readSymbol at h
  split at h
  · next hvalue => exact Except.ok.inj h ▸ symbol_of_symbolValue? hvalue
  · exact nomatch h

/-- What is split is symbols with padding behind them. -/
theorem splitGroup_eq_ok {start place padding : Nat} {symbols out : List Nat}
    {group : List UInt8} (h : splitGroup start place symbols group = .ok (out, padding)) :
    ∃ ns, (∀ n ∈ ns, n < 64) ∧ out = symbols ++ ns ∧
      group = ns.map symbol ++ List.replicate padding pad := by
  fun_induction splitGroup start place symbols group with
  | case1 place symbols =>
    obtain ⟨rfl, rfl⟩ := Prod.mk.inj (Except.ok.inj h)
    exact ⟨[], nofun, (List.append_nil _).symm, rfl⟩
  | case2 | case4 => exact nomatch h
  | case3 place symbols rest hplace hrest =>
    obtain ⟨rfl, rfl⟩ := Prod.mk.inj (Except.ok.inj h)
    refine ⟨[], nofun, (List.append_nil _).symm, ?_⟩
    have hall : ∀ x ∈ rest, x = pad := by simpa using hrest
    rw [List.map_nil, List.nil_append, List.replicate_succ, ← List.eq_replicate_of_mem hall]
  | case5 place symbols b rest hb ih =>
    obtain ⟨n, hn, h⟩ := bind_eq_ok.mp h
    obtain ⟨hsmall, hsymbol⟩ := readSymbol_eq_ok hn
    obtain ⟨ns, hns, hout, hgroup⟩ := ih n h
    refine ⟨n :: ns, ?_, by rw [hout, List.append_assoc]; rfl, ?_⟩
    · simp only [List.mem_cons]
      rintro m (rfl | hm)
      · exact hsmall
      · exact hns m hm
    · rw [List.map_cons, hsymbol, hgroup]
      rfl

theorem toNat_ofNat {n : Nat} (h : n < 256) : (UInt8.ofNat n).toNat = n :=
  UInt8.toNat_ofNat_of_lt h

/-- Four symbols put together to three bytes and cut again. -/
theorem encode_threeBytes {a b c d : Nat} (ha : a < 64) (hb : b < 64) (hc : c < 64) (hd : d < 64)
    (rest : List UInt8) :
    encode (threeBytes a b c d ++ rest)
      = symbol a :: symbol b :: symbol c :: symbol d :: encode rest := by
  have hfirst : (a * 4 + b / 16) / 4 = a := by omega
  have hsecond : (a * 4 + b / 16) % 4 * 16 + (b % 16 * 16 + c / 4) / 16 = b := by omega
  have hthird : (b % 16 * 16 + c / 4) % 16 * 4 + (c % 4 * 64 + d) / 64 = c := by omega
  have hfourth : (c % 4 * 64 + d) % 64 = d := by omega
  rw [threeBytes, List.cons_append, List.cons_append, List.cons_append, List.nil_append, encode,
    toNat_ofNat (by omega), toNat_ofNat (by omega), toNat_ofNat (by omega), hfirst, hsecond,
    hthird, hfourth]

/-- The same where the third byte is not there and the bits for it are zero. -/
theorem encode_twoBytes {a b c : Nat} (ha : a < 64) (hb : b < 64) (hc : c < 64)
    (hspare : c % 4 = 0) :
    encode ((threeBytes a b c 0).take 2) = [symbol a, symbol b, symbol c, pad] := by
  have hfirst : (a * 4 + b / 16) / 4 = a := by omega
  have hsecond : (a * 4 + b / 16) % 4 * 16 + (b % 16 * 16 + c / 4) / 16 = b := by omega
  have hthird : (b % 16 * 16 + c / 4) % 16 * 4 = c := by omega
  show encode [UInt8.ofNat (a * 4 + b / 16), UInt8.ofNat (b % 16 * 16 + c / 4)] = _
  rw [encode, toNat_ofNat (by omega), toNat_ofNat (by omega), hfirst, hsecond, hthird]

/-- The same where only the first byte is there. -/
theorem encode_oneByte {a b : Nat} (ha : a < 64) (hb : b < 64) (hspare : b % 16 = 0) :
    encode ((threeBytes a b 0 0).take 1) = [symbol a, symbol b, pad, pad] := by
  have hfirst : (a * 4 + b / 16) / 4 = a := by omega
  have hsecond : (a * 4 + b / 16) % 4 * 16 = b := by omega
  show encode [UInt8.ofNat (a * 4 + b / 16)] = _
  rw [encode, toNat_ofNat (by omega), hfirst, hsecond]

/-- What is read as the last group is a group as it is written. -/
theorem encode_of_decodeLast {start : Nat} {group bytes : List UInt8}
    (h : decodeLast start group = .ok bytes) : group = encode bytes := by
  unfold decodeLast at h
  obtain ⟨⟨ns, padding⟩, hsplit, h⟩ := bind_eq_ok.mp h
  obtain ⟨_, hsmall, rfl, rfl⟩ := splitGroup_eq_ok hsplit
  dsimp only at h
  split at h
  · exact nomatch h
  split at h
  · exact nomatch h
  next hfull =>
  -- The symbols and the padding make four, so their number decides what the group looks like.
  match ns, hsmall, hfull, h with
  | [a, b], hsmall, hfull, h =>
    obtain rfl : padding = 2 := by
      simp only [List.length_cons, List.length_nil] at hfull
      omega
    simp only at h
    split at h
    · next hspare =>
      obtain rfl := Except.ok.inj h
      exact (encode_oneByte (hsmall a (by simp)) (hsmall b (by simp)) hspare).symm
    · exact nomatch h
  | [a, b, c], hsmall, hfull, h =>
    obtain rfl : padding = 1 := by
      simp only [List.length_cons, List.length_nil] at hfull
      omega
    simp only at h
    split at h
    · next hspare =>
      obtain rfl := Except.ok.inj h
      exact (encode_twoBytes (hsmall a (by simp)) (hsmall b (by simp)) (hsmall c (by simp))
        hspare).symm
    · exact nomatch h
  | [a, b, c, d], hsmall, hfull, h =>
    obtain rfl : padding = 0 := by
      simp only [List.length_cons, List.length_nil] at hfull
      omega
    obtain rfl := Except.ok.inj h
    exact (encode_threeBytes (hsmall a (by simp)) (hsmall b (by simp)) (hsmall c (by simp))
      (hsmall d (by simp)) []).symm
  | [], _, _, h | [_], _, _, h | _ :: _ :: _ :: _ :: _ :: _, _, _, h => exact nomatch h

theorem encode_of_decodeFrom {start : Nat} {text bytes : List UInt8}
    (h : decodeFrom start text = .ok bytes) : text = encode bytes := by
  fun_induction decodeFrom start text generalizing bytes with
  | case1 =>
    obtain rfl := Except.ok.inj h
    rfl
  | case2 start a b c d e rest ih =>
    obtain ⟨m, hm, h⟩ := bind_eq_ok.mp h
    obtain ⟨n, hn, h⟩ := bind_eq_ok.mp h
    obtain ⟨o, ho, h⟩ := bind_eq_ok.mp h
    obtain ⟨p, hp, h⟩ := bind_eq_ok.mp h
    obtain ⟨more, hmore, h⟩ := bind_eq_ok.mp h
    obtain rfl := Except.ok.inj h
    obtain ⟨hmsmall, rfl⟩ := readSymbol_eq_ok hm
    obtain ⟨hnsmall, rfl⟩ := readSymbol_eq_ok hn
    obtain ⟨hosmall, rfl⟩ := readSymbol_eq_ok ho
    obtain ⟨hpsmall, rfl⟩ := readSymbol_eq_ok hp
    rw [encode_threeBytes hmsmall hnsmall hosmall hpsmall, ← ih hmore]
  | case3 start group => exact encode_of_decodeLast h

/-- **Base 64 is read from the one text that is written for the bytes.** -/
theorem decode_eq_ok_iff {text bytes : List UInt8} :
    decode text = .ok bytes ↔ text = encode bytes := by
  refine ⟨fun h => ?_, fun h => h ▸ decode_encode bytes⟩
  unfold decode at h
  split at h
  · split at h
    · exact nomatch h
    · exact encode_of_decodeFrom h
  · next hlast =>
    obtain rfl := Except.ok.inj h
    exact List.getLast?_eq_none_iff.mp hlast

theorem utf8_eq_encode_iff {text : String} {bytes : List UInt8} :
    Utf8.encode text = encode bytes ↔ text = encodeText bytes := by
  rw [← utf8_encodeText, Utf8.encode_inj]

end Base64
end RetirementVault.Text
