/-!
# Reading words as options

The words after the name of a program are options and operands. An option has a long name and
perhaps a letter; it is a flag, asks for help or the version, or wants a value, which follows it in
the same word or in the next one. A parameter may be given once.

Words are read from left to right and the first thing that stops the reading decides. A value that
came in a word of its own is held back and checked when the next thing turns up, so a call for help
behind it wins only over what comes after that.
-/

namespace RetirementVault.Command

/-- Why a command line is not carried out. -/
inductive Halt where
  /-- It asks for help. -/
  | help
  /-- It asks for the version. -/
  | version
  /-- It does not fit. -/
  | invalid
  deriving DecidableEq, Repr

/-- What a parameter means. -/
inductive Meaning where
  | flag
  | help
  | version
  /-- It wants a value that is accepted; if it takes dashes the value may begin with one. -/
  | value (accepts : String → Bool) (takesDashes : Bool)

structure Parameter where
  name : String
  letter : Option Char := none
  meaning : Meaning

/-- What a word is that is no option. -/
inductive Operand where
  | none
  /-- A value that stands for itself. It may begin with a dash where that is no option. -/
  | value (p : Parameter)
  /-- The word of a command; what follows is read by the command's own grammar. -/
  | command

/-- What may be written behind a program or a command. -/
structure Grammar where
  parameters : List Parameter
  operand : Operand

structure Reading where
  /-- Names with their values; a flag has an empty one. -/
  given : List (String × String) := []
  /-- A value that has not been checked yet. -/
  held : Option (Parameter × String) := none
  /-- The word of a command and the words behind it. -/
  command : Option (String × List String) := none

namespace Parameter

def accepts (p : Parameter) (value : String) : Bool :=
  match p.meaning with
  | .value accepts _ => accepts value
  | _ => true

/-- Whether a word of its own can be the value: a word that begins with a dash and goes on cannot,
unless the parameter takes dashes. -/
def mayFollow (p : Parameter) (word : String) : Bool :=
  match p.meaning, word.toList with
  | .value _ true, _ => true
  | _, '-' :: _ :: _ => false
  | _, _ => true

end Parameter

namespace Reading

def value? (r : Reading) (name : String) : Option String :=
  r.given.lookup name

def has (r : Reading) (name : String) : Bool :=
  (r.value? name).isSome

/-- Takes in a value, if the parameter has none yet and accepts it. -/
def record (r : Reading) (p : Parameter) (value : String) : Except Halt Reading :=
  if r.has p.name = false ∧ p.accepts value then
    .ok { r with given := r.given ++ [(p.name, value)] }
  else .error .invalid

/-- Takes in what is held back. -/
def settle (r : Reading) : Except Halt Reading :=
  match r.held with
  | none => .ok r
  | some (p, value) => { r with held := none }.record p value

/-- Holds a value back, after what was held before. -/
def hold (r : Reading) (p : Parameter) (value : String) : Except Halt Reading :=
  r.settle.map fun r => { r with held := some (p, value) }

/-- Whether the operand is still to come. -/
def lacks (r : Reading) (p : Parameter) : Bool :=
  r.has p.name = false && r.held.all fun h => h.1.name ≠ p.name

end Reading

/-! ## The parts of a word -/

/-- A part of a word of options. -/
inductive Part where
  | bare (p : Parameter)
  | withValue (p : Parameter) (value : String)
  | unknown

def Part.isKnown : Part → Bool
  | .unknown => false
  | _ => true

namespace Grammar

/-- A long option, given without its dashes. -/
def longPart (g : Grammar) (body : List Char) : Part :=
  let name := String.ofList (body.takeWhile (· ≠ '='))
  match g.parameters.find? (·.name = name), body.dropWhile (· ≠ '=') with
  | none, _ => .unknown
  | some p, [] => .bare p
  | some p, _ :: value => .withValue p (String.ofList value)

/-- The value behind a letter in the same word. -/
def valueBehind (p : Parameter) : List Char → Part
  | [] => .bare p
  | '=' :: value => .withValue p (String.ofList value)
  | value => .withValue p (String.ofList value)

/-- Letters behind one dash: flags up to the first letter that wants a value. -/
def letterParts (g : Grammar) : List Char → List Part
  | [] => []
  | c :: rest =>
    match g.parameters.find? (·.letter = some c) with
    | none => [.unknown]
    | some p =>
      match p.meaning with
      | .value .. => [valueBehind p rest]
      | _ => .bare p :: g.letterParts rest

/-- The parts of a word of options; none for an operand. -/
def parts? (g : Grammar) (r : Reading) (word : String) : Option (List Part) :=
  let parts : Option (List Part) :=
    match word.toList with
    | '-' :: '-' :: body => some [g.longPart body]
    | '-' :: c :: rest => some (g.letterParts (c :: rest))
    | _ => none
  match g.operand with
  | .value p => parts.filter fun ps => ps.all Part.isKnown || !r.lacks p
  | _ => parts

/-! ## Reading -/

/-- Reads a part. An option that waits for its value comes back beside the reading. -/
def readPart (r : Reading) : Part → Except Halt (Reading × Option Parameter)
  | .unknown => .error .invalid
  | .withValue p value => do
    let r ← r.settle
    match p.meaning with
    | .value .. => return (← r.record p value, none)
    | _ => .error .invalid
  | .bare p => do
    let r ← r.settle
    match p.meaning with
    | .flag => return (← r.record p "", none)
    | .help => .error .help
    | .version => .error .version
    | .value .. => return (r, some p)

def readParts (r : Reading) (parts : List Part) : Except Halt (Reading × Option Parameter) :=
  parts.foldlM (fun state part => readPart state.1 part) (r, none)

/-- Reads a value that stands for itself. -/
def readOperand (g : Grammar) (r : Reading) (word : String) : Except Halt Reading :=
  match g.operand with
  | .value p => r.hold p word
  | _ => .error .invalid

/-- Reads words up to the end or to the word of a command. Two dashes end the options. -/
def read (g : Grammar) (r : Reading) : List String → Except Halt Reading
  | [] => r.settle
  | word :: rest =>
    if word = "--" then rest.foldlM g.readOperand r >>= Reading.settle
    else
      match g.parts? r word with
      | none =>
        match g.operand with
        | .command => .ok { r with command := some (word, rest) }
        | _ => g.readOperand r word >>= fun r => g.read r rest
      | some parts =>
        match readParts r parts, rest with
        | .error why, _ => .error why
        | .ok (r, none), rest => g.read r rest
        | .ok (_, some _), [] => .error .invalid
        | .ok (r, some p), value :: rest =>
          if p.mayFollow value then g.read { r with held := some (p, value) } rest
          else .error .invalid

end Grammar
end RetirementVault.Command
