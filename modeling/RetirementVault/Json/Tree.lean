import RetirementVault.Json.Token
import RetirementVault.Text.Utf8

/-!
# From tokens to a tree

One token at a time, over a stack of what is still open, so a document may be nested to any depth.
`State` says what may come next; a document is whole when a value has been read and nothing is
open.
-/

namespace RetirementVault.Json

/-- What is still open around the place being read. What it holds so far is in reverse. -/
inductive Frame where
  /-- An array. -/
  | items (read : List Json)
  /-- An object. -/
  | members (read : List (Option String × Json))
  /-- A member of the object below whose value is still to come. -/
  | named (name : Option String)

/-- What may come next. -/
inductive Need where
  /-- A value. -/
  | value
  /-- The first value of an array, or its end. -/
  | valueOrEnd
  /-- The name of a member. -/
  | name
  /-- The first name of an object, or its end. -/
  | nameOrEnd
  /-- The colon between name and value. -/
  | colon
  /-- What follows a value that has just been read. -/
  | after (value : Json)

/-- Where the reading stands. -/
structure State where
  need : Need
  frames : List Frame

/-- Starts a value with its first token. -/
def startValue (frames : List Frame) : Token → Option State
  | .null => some ⟨.after .null, frames⟩
  | .bool b => some ⟨.after (.bool b), frames⟩
  | .num n => some ⟨.after (.num n), frames⟩
  | .str s => some ⟨.after (.str s), frames⟩
  | .openArr => some ⟨.valueOrEnd, .items [] :: frames⟩
  | .openObj => some ⟨.nameOrEnd, .members [] :: frames⟩
  | _ => none

/-- Starts a member with its name. -/
def startMember (frames : List Frame) : Token → Option State
  | .str s => some ⟨.colon, .named s :: frames⟩
  | _ => none

/-- Goes on after a value. -/
def afterValue (v : Json) : List Frame → Token → Option State
  | .items read :: frames, .comma => some ⟨.value, .items (v :: read) :: frames⟩
  | .items read :: frames, .closeArr => some ⟨.after (.arr (v :: read).reverse), frames⟩
  | .named n :: .members read :: frames, .comma =>
    some ⟨.name, .members ((n, v) :: read) :: frames⟩
  | .named n :: .members read :: frames, .closeObj =>
    some ⟨.after (.obj ((n, v) :: read).reverse), frames⟩
  | _, _ => none

def State.step (s : State) (t : Token) : Option State :=
  match s.need with
  | .value => startValue s.frames t
  | .valueOrEnd =>
    match s.frames, t with
    | .items [] :: frames, .closeArr => some ⟨.after (.arr []), frames⟩
    | frames, t => startValue frames t
  | .name => startMember s.frames t
  | .nameOrEnd =>
    match s.frames, t with
    | .members [] :: frames, .closeObj => some ⟨.after (.obj []), frames⟩
    | frames, t => startMember frames t
  | .colon => if t = .colon then some ⟨.value, s.frames⟩ else none
  | .after v => afterValue v s.frames t

/-- The tree that some tokens spell. -/
def ofTokens? (ts : List Token) : Option Json :=
  match ts.foldlM State.step ⟨.value, []⟩ with
  | some ⟨.after v, []⟩ => some v
  | _ => none

def ofSource? (s : Source) : Option Json :=
  (tokens? s).bind ofTokens?

def ofBytes? (bytes : List UInt8) : Option Json :=
  ofSource? (Text.Utf8.decode bytes)

end RetirementVault.Json
