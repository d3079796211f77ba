import RetirementVault.Ledger.Basic
import RetirementVault.Store.Fault
import RetirementVault.Store.Path

/-!
# How a command can fail

A command fails for a cause, which has one sentence, or it is cut short: by an overflow of the
ledger's numbers, or because what it has to say cannot be said. The sentence names what was tried
and ends with what went wrong.
-/

namespace RetirementVault.Command

open Store

/-- What is done to one file or directory. -/
inductive FileDeed where
  | makeDirs
  | openFile
  | lock
  | create
  | write
  | sync
  | read
  deriving DecidableEq, Repr

def FileDeed.name : FileDeed → String
  | .makeDirs => "mkdir"
  | .openFile => "open"
  | .lock => "lock"
  | .create => "create"
  | .write => "write"
  | .sync => "sync"
  | .read => "read"

inductive Failure where
  | file (deed : FileDeed) (p : Path) (why : FileFault)
  | rename (source target : Path) (why : FileFault)
  | input (why : FileFault)
  | noSettings (p : Path) (why : FileFault)
  | badSettings (p : Path)
  | noState (p : Path) (why : FileFault)
  | badState (p : Path)
  | badSeries
  | stateExists (p : Path)
  | refused (why : Refusal)
  | badKey (why : Signing.KeyFault)
  deriving DecidableEq, Repr

/-- What stands in a message for the details of a text that is no JSON of the wanted form. -/
def jsonDetails : String := "<json>"

def Failure.message : Failure → String
  | .file deed p why => deed.name ++ " " ++ p ++ ": " ++ why.message
  | .rename source target why => "rename " ++ source ++ " → " ++ target ++ ": " ++ why.message
  | .input why => "read series from stdin: " ++ why.message
  | .noSettings p why => "cannot read " ++ p ++ ": " ++ why.message ++ ": " ++ why.message
  | .badSettings p =>
    "invalid vault settings in " ++ p ++ ": " ++ jsonDetails ++ ": " ++ jsonDetails
  | .noState p why => "cannot read state " ++ p ++ " (run `inssats init` first): " ++ why.message
  | .badState p => "state parse " ++ p ++ ": " ++ jsonDetails
  | .badSeries => "series parse: " ++ jsonDetails
  | .stateExists p => p ++ " already exists (use --force to overwrite)"
  | .refused why => why.message
  | .badKey why => (Signing.Fault.malformedKey why.message).message

inductive Ending where
  | failed (why : Failure)
  | overflow (which : Overflow)
  /-- What it had to say could not be said. -/
  | unheard (why : FileFault)
  deriving DecidableEq, Repr

/-- What is said of a command that is not heard. -/
def unheardMessage (why : FileFault) : String :=
  "failed printing to stdout: " ++ why.message

def Ending.ofStop : Stop → Ending
  | .refused why => .failed (.refused why)
  | .overflow which => .overflow which

end RetirementVault.Command
