import RetirementVault.Text.Numeral

/-!
# Hexadecimal

Two digits a byte, the high half first. Writing uses small letters; reading takes either case and
says what is wrong otherwise. A text of odd length is refused as such before any character is
looked at.

Every byte has one pair of small digits, so writing and then reading changes nothing.
-/

namespace RetirementVault.Text.Hex

inductive Fault where
  /-- The digits do not come in pairs. -/
  | oddLength
  /-- A byte that is no digit, and its place. -/
  | badDigit (byte : UInt8) (place : Nat)
  deriving DecidableEq, Repr

/-- The digit that a byte stands for in the hexadecimal notation of either case. -/
def digitValue? (b : UInt8) : Option Nat :=
  let n := b.toNat
  if 48 ≤ n ∧ n ≤ 57 then some (n - 48)
  else if 97 ≤ n ∧ n ≤ 102 then some (n - 87)
  else if 65 ≤ n ∧ n ≤ 70 then some (n - 55)
  else none

/-- The two digits of a byte. -/
def byteDigits (b : UInt8) : List Char :=
  [Nat.digitChar (b.toNat / 16), Nat.digitChar (b.toNat % 16)]

def encodeChars (bytes : List UInt8) : List Char :=
  bytes.flatMap byteDigits

def encode (bytes : List UInt8) : String :=
  String.ofList (encodeChars bytes)

def readDigit (b : UInt8) (place : Nat) : Except Fault Nat :=
  match digitValue? b with
  | some n => .ok n
  | none => .error (.badDigit b place)

/-- Reads pairs of digits, the first of them at a given place. -/
def decodeFrom (place : Nat) : List UInt8 → Except Fault (List UInt8)
  | [] => .ok []
  | [_] => .error .oddLength
  | a :: b :: rest => do
    let high ← readDigit a place
    let low ← readDigit b (place + 1)
    let bytes ← decodeFrom (place + 2) rest
    return UInt8.ofNat (16 * high + low) :: bytes

/-- Reads a text of hexadecimal digits, given by its bytes. -/
def decode (text : List UInt8) : Except Fault (List UInt8) :=
  if text.length % 2 = 1 then .error .oddLength else decodeFrom 0 text

/-- The character with a byte's number, between single quotes and with a backslash before what
would not show. -/
def quoted (b : UInt8) : List Char :=
  let n := b.toNat
  let shown :=
    if n = 0 then ['\\', '0']
    else if n = 9 then ['\\', 't']
    else if n = 10 then ['\\', 'n']
    else if n = 13 then ['\\', 'r']
    else if n = 39 then ['\\', '\x27']
    else if n = 92 then ['\\', '\\']
    else if n < 32 ∨ 127 ≤ n ∧ n ≤ 160 ∨ n = 173 then
      ['\\', 'u', '\x7b'] ++ Nat.toDigits 16 n ++ ['\x7d']
    else [Char.ofNat n]
  '\x27' :: shown ++ ['\x27']

def Fault.message : Fault → String
  | .oddLength => "Odd number of digits"
  | .badDigit byte place =>
    "Invalid character " ++ String.ofList (quoted byte) ++ " at position "
      ++ decimal place

end RetirementVault.Text.Hex
