import RetirementVault.Json.Basic
import RetirementVault.Text.Numeral

/-!
# Writing JSON

A tree as text, in one of two layouts: on one line without blanks, or spread over lines with two
spaces a level. The layouts differ in nothing but the blanks; an empty array or object is closed at
once in both.
-/

namespace RetirementVault.Json

/-- Where a text puts blanks. -/
inductive Layout where
  /-- Nowhere. -/
  | compact
  /-- A new line for each item, and a space after each colon. -/
  | pretty
  deriving DecidableEq, Repr

/-- What stands before an item, or before a closing bracket, at a depth. -/
def Layout.newline : Layout → Nat → List Char
  | .compact, _ => []
  | .pretty, depth => '\n' :: List.replicate (2 * depth) ' '

/-- What stands between a name and its value. -/
def Layout.colon : Layout → List Char
  | .compact => [':']
  | .pretty => [':', ' ']

/-- A character between quotes. Quote, backslash and the characters below the space are escaped,
by a letter where there is one. -/
def escapeChar (c : Char) : List Char :=
  if c = '\x22' ∨ c = '\\' then ['\\', c]
  else if c = '\x08' then ['\\', 'b']
  else if c = '\x0c' then ['\\', 'f']
  else if c = '\n' then ['\\', 'n']
  else if c = '\r' then ['\\', 'r']
  else if c = '\t' then ['\\', 't']
  else if c.toNat < 32 then
    ['\\', 'u', '0', '0', Nat.digitChar (c.toNat / 16), Nat.digitChar (c.toNat % 16)]
  else [c]

def quote (s : String) : List Char :=
  '\x22' :: s.toList.flatMap escapeChar ++ ['\x22']

/-- A number as it is written. The sign of a power of ten is always there. -/
def Numeral.chars (n : Numeral) : List Char :=
  (if n.negative then ['-'] else []) ++ n.whole
    ++ (if n.fraction = [] then [] else '.' :: n.fraction)
    ++ match n.exponent with
      | none => []
      | some e => 'e' :: (if e < 0 then '-' else '+') :: Text.digits e.natAbs

mutual

/-- A tree as text, at a depth. -/
def write (l : Layout) (depth : Nat) : Json → List Char
  | .null => ['n', 'u', 'l', 'l']
  | .bool true => ['t', 'r', 'u', 'e']
  | .bool false => ['f', 'a', 'l', 's', 'e']
  | .num n => n.chars
  | .str s => quote (s.getD "")
  | .arr [] => ['[', ']']
  | .arr (v :: vs) =>
    '[' :: l.newline (depth + 1) ++ write l (depth + 1) v ++ writeItems l (depth + 1) vs
      ++ l.newline depth ++ [']']
  | .obj [] => ['\x7b', '\x7d']
  | .obj ((n, v) :: ms) =>
    '\x7b' :: l.newline (depth + 1) ++ quote (n.getD "") ++ l.colon ++ write l (depth + 1) v
      ++ writeMembers l (depth + 1) ms ++ l.newline depth ++ ['\x7d']

def writeItems (l : Layout) (depth : Nat) : List Json → List Char
  | [] => []
  | v :: vs => ',' :: l.newline depth ++ write l depth v ++ writeItems l depth vs

def writeMembers (l : Layout) (depth : Nat) : List (Option String × Json) → List Char
  | [] => []
  | (n, v) :: ms =>
    ',' :: l.newline depth ++ quote (n.getD "") ++ l.colon ++ write l depth v
      ++ writeMembers l depth ms

end

def text (l : Layout) (v : Json) : String :=
  String.ofList (write l 0 v)

end RetirementVault.Json
