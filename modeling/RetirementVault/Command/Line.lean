import RetirementVault.Command.Grammar
import RetirementVault.Money
import RetirementVault.Store.Path

/-!
# The command line

The commands of the program, how each of them is written, and what a whole line of words asks for.
Options of the program stand before the word of the command, options of the command behind it.
-/

namespace RetirementVault

open Store

inductive Command where
  /-- Opens a vault. -/
  | init (label : Option String) (balance : Option Sats) (force : Bool)
  /-- Prints the vault. -/
  | report
  /-- Reserves funds for a withdrawal; with `verify` the signature has to be right. -/
  | initiate (amount destination signature : String) (verify : Bool)
  /-- Settles the pending withdrawal. -/
  | execute
  /-- Makes a pair of keys in a directory. -/
  | keygen (directory : Path)
  /-- Signs a withdrawal. -/
  | sign (secret : String) (amount : Sats) (destination : String)
  /-- Prints an amount with its sign. -/
  | format (value : Int)
  /-- Pulls a curve earlier. -/
  | project (years : UInt32) (series : Option Path)
  deriving DecidableEq, Repr

namespace Command

structure Invocation where
  command : Command
  /-- The file the ledger is kept in. -/
  state : Path
  /-- The file with the settings of a new vault. -/
  settings : Option Path
  /-- Whether to tell more of what is going on. -/
  verbose : Bool
  deriving DecidableEq, Repr

/-- How a command is written and what its readings mean. -/
structure Form where
  word : String
  grammar : Grammar
  build : Reading → Option Command

/-- The file a ledger is kept in unless another one is named. -/
def defaultState : Path := "inssats_state.json"

/-! ## Values -/

/-- Reads a literal of a 32-bit word, which may be written as a signed number. -/
def readUInt32? (s : String) : Option UInt32 :=
  match Text.readInt64? s with
  | some n => if 0 ≤ n ∧ n < UInt32.size then some (UInt32.ofNat n.toNat) else none
  | none => none

def textParameter (name : String) : Parameter where
  name
  meaning := .value (fun _ => true) false

/-- A parameter for a path, which is not empty. -/
def pathParameter (name : String) (letter : Option Char) : Parameter where
  name
  letter
  meaning := .value (· ≠ "") false

def wordParameter (name : String) : Parameter where
  name
  meaning := .value (fun s => (Text.readUInt64? s).isSome) false

def flagParameter (name : String) (letter : Option Char) : Parameter where
  name
  letter
  meaning := .flag

def helpParameter : Parameter where
  name := "help"
  letter := 'h'
  meaning := .help

def versionParameter : Parameter where
  name := "version"
  letter := 'V'
  meaning := .version

/-- The number that is printed with its sign. -/
def formatOperand : Parameter where
  name := "value"
  meaning := .value (fun s => (Text.readInt64? s).isSome) true

/-! ## Forms -/

/-- What may stand before the word of a command. -/
def topGrammar : Grammar where
  parameters := [pathParameter "state" 's', pathParameter "config" 'c',
    flagParameter "verbose" 'v', helpParameter, versionParameter]
  operand := .command

def optionsOnly (parameters : List Parameter) : Grammar where
  parameters := parameters ++ [helpParameter]
  operand := .none

def forms : List Form := [
  { word := "init"
    grammar := optionsOnly [textParameter "label", wordParameter "balance",
      flagParameter "force" none]
    build := fun r =>
      some (.init (r.value? "label") ((r.value? "balance").bind Text.readUInt64?)
        (r.has "force")) },
  { word := "show"
    grammar := optionsOnly []
    build := fun _ => some .report },
  { word := "initiate"
    grammar := optionsOnly [{ name := "amount", meaning := .value (fun _ => true) true },
      textParameter "destination", textParameter "signature", flagParameter "verify" none]
    build := fun r => do
      return .initiate (← r.value? "amount") (← r.value? "destination") (← r.value? "signature")
        (r.has "verify") },
  { word := "execute"
    grammar := optionsOnly []
    build := fun _ => some .execute },
  { word := "keygen"
    grammar := optionsOnly [pathParameter "out-dir" none]
    build := fun r => (r.value? "out-dir").map .keygen },
  { word := "sign"
    grammar := optionsOnly [textParameter "sk-hex", wordParameter "amount",
      textParameter "destination"]
    build := fun r => do
      return .sign (← r.value? "sk-hex") (← (r.value? "amount").bind Text.readUInt64?)
        (← r.value? "destination") },
  { word := "format"
    grammar := { parameters := [helpParameter], operand := .value formatOperand }
    build := fun r => ((r.value? formatOperand.name).bind Text.readInt64?).map .format },
  { word := "project"
    grammar := optionsOnly [
      { name := "years", meaning := .value (fun s => (readUInt32? s).isSome) false },
      pathParameter "series" none]
    build := fun r =>
      ((r.value? "years").bind readUInt32?).map fun years => .project years (r.value? "series") }]

def helpWord : String := "help"

def form? (word : String) : Option Form :=
  forms.find? (·.word = word)

/-- What the words behind the help word come to: help for the program or for one command. -/
def helpFor : List String → Halt
  | [] => .help
  | [word] => if word = helpWord ∨ (form? word).isSome then .help else .invalid
  | _ => .invalid

/-- Reads the words of a command line. The words of the command are read before a value that
directly precedes its word is checked. -/
def Invocation.ofWords (words : List String) : Except Halt Invocation := do
  let top ← topGrammar.read {} words
  let some (word, rest) := top.command | .error .invalid
  if word = helpWord then .error (helpFor rest)
  else
    let some form := form? word | .error .invalid
    let inner ← form.grammar.read {} rest
    let top ← top.settle
    let some command := form.build inner | .error .invalid
    return {
      command
      state := (top.value? "state").getD defaultState
      settings := top.value? "config"
      verbose := top.has "verbose" }

end Command
end RetirementVault
