import RetirementVault.Text.Numeral

/-!
# Base 64

The standard alphabet with `=` for padding. A text is accepted in its one canonical form only: the
padding has to be there, and the bits that the last symbol has to spare have to be zero. So each
byte string has exactly one text.

Which of several faults is reported follows the order of reading: a stray last byte first, then the
full groups of four from the left, then the last group.
-/

namespace RetirementVault.Text.Base64

inductive Fault where
  /-- A byte where it may not stand. -/
  | badSymbol (byte : UInt8) (place : Nat)
  /-- The last group has too few symbols for a byte. -/
  | badLength (length : Nat)
  /-- The last group is not filled up to four. -/
  | badPadding
  /-- The last symbol has bits that belong to no byte. -/
  | badLastSymbol (byte : UInt8) (place : Nat)
  deriving DecidableEq, Repr

/-- The padding byte. -/
def pad : UInt8 := 61

/-- The six bits that a byte of the alphabet stands for. -/
def symbolValue? (b : UInt8) : Option Nat :=
  let n := b.toNat
  if 65 ≤ n ∧ n ≤ 90 then some (n - 65)
  else if 97 ≤ n ∧ n ≤ 122 then some (n - 71)
  else if 48 ≤ n ∧ n ≤ 57 then some (n + 4)
  else if n = 43 then some 62
  else if n = 47 then some 63
  else none

/-- The byte of the alphabet for six bits. -/
def symbol (n : Nat) : UInt8 :=
  UInt8.ofNat
    (if n < 26 then n + 65
    else if n < 52 then n + 71
    else if n < 62 then n - 4
    else if n = 62 then 43
    else 47)

def encode : List UInt8 → List UInt8
  | [] => []
  | [a] => [symbol (a.toNat / 4), symbol (a.toNat % 4 * 16), pad, pad]
  | [a, b] =>
    [symbol (a.toNat / 4), symbol (a.toNat % 4 * 16 + b.toNat / 16),
      symbol (b.toNat % 16 * 4), pad]
  | a :: b :: c :: rest =>
    symbol (a.toNat / 4) :: symbol (a.toNat % 4 * 16 + b.toNat / 16)
      :: symbol (b.toNat % 16 * 4 + c.toNat / 64) :: symbol (c.toNat % 64) :: encode rest

def readSymbol (b : UInt8) (place : Nat) : Except Fault Nat :=
  match symbolValue? b with
  | some n => .ok n
  | none => .error (.badSymbol b place)

def threeBytes (a b c d : Nat) : List UInt8 :=
  [UInt8.ofNat (a * 4 + b / 16), UInt8.ofNat (b % 16 * 16 + c / 4), UInt8.ofNat (c % 4 * 64 + d)]

/-- The symbols of the last group in order, and how many padding bytes follow them. The first two
places have to hold symbols, and no symbol may follow padding. -/
def splitGroup (start : Nat) : (place : Nat) → (symbols : List Nat) → List UInt8 →
    Except Fault (List Nat × Nat)
  | _, symbols, [] => .ok (symbols, 0)
  | place, symbols, b :: rest =>
    if b = pad then
      if place < 2 then .error (.badSymbol pad (start + place))
      else if rest.all (· = pad) then .ok (symbols, rest.length + 1)
      else .error (.badSymbol pad (start + place))
    else do
      let n ← readSymbol b (start + place)
      splitGroup start (place + 1) (symbols ++ [n]) rest

/-- Reads the last group, of one to four bytes, that starts at a place. -/
def decodeLast (start : Nat) (group : List UInt8) : Except Fault (List UInt8) := do
  let (symbols, padding) ← splitGroup start 0 [] group
  let last (place : Nat) : Except Fault (List UInt8) :=
    .error (.badLastSymbol (group.getD place 0) (start + place))
  if symbols.length < 2 then .error (.badLength (start + symbols.length))
  else if symbols.length + padding ≠ 4 then .error .badPadding
  else
    match symbols with
    | [a, b] => if b % 16 = 0 then .ok ((threeBytes a b 0 0).take 1) else last 1
    | [a, b, c] => if c % 4 = 0 then .ok ((threeBytes a b c 0).take 2) else last 2
    | [a, b, c, d] => .ok (threeBytes a b c d)
    | _ => .error .badPadding

/-- Reads groups of four from a place on; the last may be shorter or padded. -/
def decodeFrom (start : Nat) : List UInt8 → Except Fault (List UInt8)
  | [] => .ok []
  | a :: b :: c :: d :: e :: rest => do
    let a ← readSymbol a start
    let b ← readSymbol b (start + 1)
    let c ← readSymbol c (start + 2)
    let d ← readSymbol d (start + 3)
    let bytes ← decodeFrom (start + 4) (e :: rest)
    return threeBytes a b c d ++ bytes
  | group => decodeLast start group

/-- Reads a text in base 64, given by its bytes. A byte left over after the groups of four is
looked at first. -/
def decode (text : List UInt8) : Except Fault (List UInt8) :=
  match text.getLast? with
  | some b =>
    if text.length % 4 = 1 ∧ b ≠ pad ∧ symbolValue? b = none then
      .error (.badSymbol b (text.length - 1))
    else decodeFrom 0 text
  | none => .ok []

def Fault.message : Fault → String
  | .badSymbol byte place =>
    "Invalid symbol " ++ decimal byte.toNat ++ ", offset "
      ++ decimal place ++ "."
  | .badLength length => "Invalid input length: " ++ decimal length
  | .badPadding => "Invalid padding"
  | .badLastSymbol byte place =>
    "Invalid last symbol " ++ decimal byte.toNat ++ ", offset "
      ++ decimal place ++ "."

end RetirementVault.Text.Base64
