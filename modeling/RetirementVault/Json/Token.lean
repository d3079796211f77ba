import RetirementVault.Json.Basic
import RetirementVault.Text.Numeral

/-!
# JSON tokens

A JSON text cut into brackets, separators, words, numbers and texts. The text comes as characters
with `none` for each byte that is part of none, as `Text.Utf8.decode` gives it; such a byte may
stand inside quotes only, where it makes the quoted text unreadable and nothing else.

A quoted text is read in two steps. `readPieces` finds its end and checks the form of the escapes,
which is all that is asked of a text nobody wants; `textOf?` then puts surrogate pairs together
and answers with the string, if it is one.
-/

namespace RetirementVault.Json

/-- A JSON text, with `none` for a byte that belongs to no character. -/
abbrev Source := List (Option Char)

inductive Token where
  | openArr
  | closeArr
  | openObj
  | closeObj
  | comma
  | colon
  | null
  | bool (value : Bool)
  | num (numeral : Numeral)
  | str (text : Option String)
  deriving DecidableEq, Repr

/-! ## Quoted texts -/

/-- What stands between quotes: a character, a byte of none, or an escaped UTF-16 unit. -/
inductive Piece where
  | char (c : Char)
  | damaged
  | unit (n : Nat)
  deriving DecidableEq, Repr

/-- The character a one-letter escape stands for. -/
def escaped? (c : Char) : Option Char :=
  if c = '\x22' ∨ c = '\\' ∨ c = '/' then some c
  else if c = 'b' then some '\x08'
  else if c = 'f' then some '\x0c'
  else if c = 'n' then some '\n'
  else if c = 'r' then some '\r'
  else if c = 't' then some '\t'
  else none

def hexValue? (c : Char) : Option Nat :=
  let n := c.toNat
  if 48 ≤ n ∧ n ≤ 57 then some (n - 48)
  else if 97 ≤ n ∧ n ≤ 102 then some (n - 87)
  else if 65 ≤ n ∧ n ≤ 70 then some (n - 55)
  else none

/-- The unit that four hexadecimal digits spell. -/
def unit? (a b c d : Char) : Option Piece := do
  let a ← hexValue? a
  let b ← hexValue? b
  let c ← hexValue? c
  let d ← hexValue? d
  return .unit (((a * 16 + b) * 16 + c) * 16 + d)

/-- Reads to the closing quote. A character below the space has to be escaped. -/
def readPieces : Source → Option (List Piece × Source)
  | [] => none
  | none :: s => (readPieces s).map fun r => (.damaged :: r.1, r.2)
  | some '\\' :: some 'u' :: some a :: some b :: some c :: some d :: s =>
    match unit? a b c d with
    | some p => (readPieces s).map fun r => (p :: r.1, r.2)
    | none => none
  | some '\\' :: some e :: s =>
    match escaped? e with
    | some c => (readPieces s).map fun r => (.char c :: r.1, r.2)
    | none => none
  | some c :: s =>
    if c = '\x22' then some ([], s)
    else if c = '\\' ∨ c.toNat < 32 then none
    else (readPieces s).map fun r => (.char c :: r.1, r.2)

/-- The string that some pieces spell. A leading surrogate has to be followed by a trailing one. -/
def charsOf? : List Piece → Option (List Char)
  | [] => some []
  | .char c :: ps => (charsOf? ps).map (c :: ·)
  | .damaged :: _ => none
  | .unit n :: .unit m :: ps =>
    if 0xD800 ≤ n ∧ n < 0xDC00 then
      if 0xDC00 ≤ m ∧ m < 0xE000 then
        (charsOf? ps).map (Char.ofNat (0x10000 + (n - 0xD800) * 0x400 + (m - 0xDC00)) :: ·)
      else none
    else if 0xDC00 ≤ n ∧ n < 0xE000 then none
    else (charsOf? (.unit m :: ps)).map (Char.ofNat n :: ·)
  | .unit n :: ps =>
    if 0xD800 ≤ n ∧ n < 0xE000 then none else (charsOf? ps).map (Char.ofNat n :: ·)

def textOf? (pieces : List Piece) : Option String :=
  (charsOf? pieces).map String.ofList

/-! ## Numbers -/

/-- The digits a text starts with, and the rest. -/
def takeDigits : Source → List Char × Source
  | some c :: s =>
    if c.isDigit then ((c :: (takeDigits s).1), (takeDigits s).2) else ([], some c :: s)
  | s => ([], s)

/-- Reads the digits before the point. A zero in front stands alone. -/
def readWhole : Source → Option (List Char × Source)
  | some '0' :: s => some (['0'], s)
  | s => if (takeDigits s).1 = [] then none else some (takeDigits s)

/-- Reads a point and the digits after it, if there is a point. -/
def readFraction : Source → Option (List Char × Source)
  | some '.' :: s => if (takeDigits s).1 = [] then none else some (takeDigits s)
  | s => some ([], s)

/-- Reads the digits of a power of ten. -/
def readPower (negative : Bool) (s : Source) : Option (Option Int × Source) :=
  let (ds, rest) := takeDigits s
  if ds = [] then none
  else
    let n := Nat.ofDigitChars 10 ds 0
    some (some (if negative then -(n : Int) else n), rest)

/-- Reads a power of ten, if there is one. -/
def readExponent : Source → Option (Option Int × Source)
  | some c :: s =>
    if c = 'e' ∨ c = 'E' then
      match s with
      | some '+' :: s => readPower false s
      | some '-' :: s => readPower true s
      | s => readPower false s
    else some (none, some c :: s)
  | s => some (none, s)

/-- Reads a number without its sign. -/
def readNumeral (negative : Bool) (s : Source) : Option (Numeral × Source) := do
  let (whole, s) ← readWhole s
  let (fraction, s) ← readFraction s
  let (exponent, s) ← readExponent s
  return ({ negative, whole, fraction, exponent }, s)

/-! ## Tokens -/

/-- The blanks between tokens: space, tab and the two line ends. -/
def isGap (c : Char) : Bool :=
  c = ' ' || c = '\t' || c = '\n' || c = '\r'

/-- What is left after a word, if the text starts with it. -/
def afterWord? : List Char → Source → Option Source
  | [], s => some s
  | c :: w, some d :: s => if c = d then afterWord? w s else none
  | _ :: _, _ => none

/-- Reads the token that starts with a character and goes on with a text. -/
def readToken (c : Char) (s : Source) : Option (Token × Source) :=
  if c = '[' then some (.openArr, s)
  else if c = ']' then some (.closeArr, s)
  else if c = '\x7b' then some (.openObj, s)
  else if c = '\x7d' then some (.closeObj, s)
  else if c = ',' then some (.comma, s)
  else if c = ':' then some (.colon, s)
  else if c = '\x22' then (readPieces s).map fun r => (.str (textOf? r.1), r.2)
  else if c = '-' then (readNumeral true s).map fun r => (.num r.1, r.2)
  else if c.isDigit then (readNumeral false (some c :: s)).map fun r => (.num r.1, r.2)
  else if c = 'n' then (afterWord? ['u', 'l', 'l'] s).map fun r => (.null, r)
  else if c = 't' then (afterWord? ['r', 'u', 'e'] s).map fun r => (.bool true, r)
  else if c = 'f' then (afterWord? ['a', 'l', 's', 'e'] s).map fun r => (.bool false, r)
  else none

/-- Cuts a text of at most so many characters into tokens. -/
def tokensWithin : Nat → Source → Option (List Token)
  | _, [] => some []
  | 0, _ :: _ => none
  | _ + 1, none :: _ => none
  | n + 1, some c :: s =>
    if isGap c then tokensWithin n s
    else
      match readToken c s with
      | some (t, rest) => (tokensWithin n rest).map (t :: ·)
      | none => none

/-- The tokens of a text. Each takes at least one character. -/
def tokens? (s : Source) : Option (List Token) :=
  tokensWithin s.length s

end RetirementVault.Json
