import RetirementVault.Json.Number

/-!
# Reading typed values out of a tree

The readers of the domain types are put together from these. A record is written as an object with
its fields in any order or as an array with its fields in the declared order; `fields?` reads both
forms and leaves it to the record to say what a missing field means.
-/

namespace RetirementVault.Json

def string? : Json → Option String
  | .str s => s
  | _ => none

/-- The whole number of a number written as one. -/
def natural? : Json → Option Nat
  | .num n => n.natural?
  | _ => none

def uint64? (v : Json) : Option UInt64 :=
  match v.natural? with
  | some n => if n < UInt64.size then some (UInt64.ofNat n) else none
  | none => none

def uint32? (v : Json) : Option UInt32 :=
  match v.natural? with
  | some n => if n < UInt32.size then some (UInt32.ofNat n) else none
  | none => none

/-- A 32-bit binary value, of any number. -/
def single? : Json → Option Binary.Single
  | .num n => n.single?
  | _ => none

/-- The items of an array, each read the same way. -/
def list? {α : Type} (read : Json → Option α) : Json → Option (List α)
  | .arr items => items.mapM read
  | _ => none

/-- Nothing for null, and a value otherwise. -/
def optional? {α : Type} (read : Json → Option α) : Json → Option (Option α)
  | .null => some none
  | v => (read v).map some

/-- The value of the one member with a name; an error if there are several. -/
def member? (members : List (Option String × Json)) (name : String) : Option (Option Json) :=
  match members.filter fun m => m.1 = some name with
  | [] => some none
  | [m] => some (some m.2)
  | _ => none

/-- The fields of a record, in the declared order, absent where they are missing.

In an object every name has to be readable and no declared name may be repeated; names that are
not declared are passed over. In an array there is a field for each place, at least the first
`least` of them and no more than are declared. -/
def fields? (names : List String) (least : Nat) : Json → Option (List (Option Json))
  | .obj members => if namesReadable members then names.mapM (member? members) else none
  | .arr items =>
    if least ≤ items.length ∧ items.length ≤ names.length then
      some (items.map some ++ List.replicate (names.length - items.length) none)
    else none
  | _ => none

end RetirementVault.Json
