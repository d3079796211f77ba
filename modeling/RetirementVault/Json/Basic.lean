/-!
# JSON trees

A JSON text as a tree. Two things are kept that a looser tree would lose: a number stands as it
was written, because how it is read depends on what it is wanted for, and an object keeps its
members in order, repeated names and all, because a repeated name is refused only where the name
means something.

A text that spells no Unicode string, by a damaged byte or half of a surrogate pair, is still a
text of the tree: it may stand in a part of the document nobody reads.
-/

namespace RetirementVault

/-- A JSON number as it is written. -/
structure Json.Numeral where
  /-- Whether a minus sign stands in front. -/
  negative : Bool
  /-- Digits before the point, at least one. -/
  whole : List Char
  /-- Digits after the point, empty if there is no point. -/
  fraction : List Char
  /-- The power of ten, if one is written. -/
  exponent : Option Int
  deriving DecidableEq, Repr

/-- A JSON document. A text is absent where what was written spells no Unicode string. -/
inductive Json where
  | null
  | bool (value : Bool)
  | num (numeral : Json.Numeral)
  | str (text : Option String)
  | arr (items : List Json)
  | obj (members : List (Option String × Json))
  deriving Repr

namespace Json

instance : Inhabited Json := ⟨.null⟩

def ofText (s : String) : Json :=
  .str (some s)

def ofMembers (members : List (String × Json)) : Json :=
  .obj (members.map fun m => (some m.1, m.2))

/-- The members of an object are whole: each name is a Unicode string. -/
def namesReadable (members : List (Option String × Json)) : Bool :=
  members.all fun m => m.1.isSome

end Json
end RetirementVault
