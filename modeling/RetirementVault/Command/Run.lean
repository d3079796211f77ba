import RetirementVault.Command.Line
import RetirementVault.Command.Job
import RetirementVault.Ledger.Notice
import RetirementVault.Projection.Shift
import RetirementVault.Settings

/-!
# What the commands do

The ledger is kept in one file. A command that changes it holds a lock from before it reads the
file until after it has written it, checks everything before the first byte is written, and speaks
only after the lock is back. So a command that cannot make itself heard has done its work all the
same.
-/

namespace RetirementVault.Command

open Store Job

/-- The bytes a ledger is kept as. -/
def stateBytes (l : Ledger) : List UInt8 :=
  Text.Utf8.encode (l.text .pretty)

def loadState (state : Path) : Job Ledger := do
  let bytes ← orFail (← ask (.read state)) (.noState state)
  match Ledger.ofBytes? bytes with
  | some l => return l
  | none => fail (.badState state)

def saveState (state : Path) (l : Ledger) : Job Unit :=
  writeFile state (stateBytes l)

/-- The lines that show a ledger. -/
def reportText (l : Ledger) : String :=
  "Vault:   " ++ l.vault.label ++ "\n"
    ++ "Balance: " ++ Money.satsLabel l.balance ++ "\n"
    ++ "Pending: " ++ pendingText l.pending ++ "\n"
where
  /-- The pending withdrawal in a line. -/
  pendingText : Option Operation → String
    | some op => op.id ++ " (" ++ Money.satsLabel op.amount ++ " → " ++ op.destination ++ ")"
    | none => "none"

def printReport (l : Ledger) : Job Unit :=
  say (reportText l)

def loadSettings : Option Path → Job Settings
  | none => pure {}
  | some p => do
    let bytes ← orFail (← ask (.read p)) (.noSettings p)
    match Settings.ofBytes? bytes with
    | some s => return s
    | none => fail (.badSettings p)

/-- Settings with what was given on the command line put in their place. -/
def overridden (s : Settings) (label : Option String) (balance : Option Sats) : Settings where
  label := label.getD s.label
  balance := balance.getD s.balance

/-- Opens a vault. -/
def initJob (state : Path) (settings : Option Path) (label : Option String) (balance : Option Sats)
    (force : Bool) : Job Unit := do
  let ledger := (overridden (← loadSettings settings) label balance).openLedger
  withLock state do
    if (← isThere state) && !force then fail (.stateExists state)
    saveState state ledger
  printReport ledger

def verifier (verify : Bool) : Signing.Verifier :=
  if verify then Signing.ed25519 else Signing.acceptAny

/-- Reserves funds for a withdrawal. -/
def initiateJob (state : Path) (amount destination signature : String) (verify : Bool) :
    Job Unit := do
  let amount ← orStop ((parseAmount amount).mapError .refused)
  let (op, ledger) ← withLock state do
    let ledger ← loadState state
    let now ← ask .now
    let (answer, after) :=
      ledger.initiateVerified (verifier verify) now { amount, destination, signature }
    let op ← orStop answer
    saveState state after
    return (op, after)
  printLine op.reservedNotice
  printReport ledger

/-- Settles the pending withdrawal. -/
def executeJob (state : Path) : Job Unit := do
  let (op, ledger) ← withLock state do
    let ledger ← loadState state
    let (answer, after) := ledger.settle
    let (_, op) ← orStop answer
    saveState state after
    return (op, after)
  printLine op.settledNotice
  printReport ledger

def keygenJob (directory : Path) : Job Unit := do
  let secret ← ask (.random Signing.keyLength)
  let key (bytes : List UInt8) := Text.Utf8.encode (Text.Hex.encode bytes)
  writeFile (directory.child "sk.hex") (key secret)
  writeFile (directory.child "pk.hex") (key (Crypto.Ed25519.publicKey secret))
  printLine ("keypair written → " ++ directory)

def signJob (secret : String) (amount : Sats) (destination : String) : Job Unit :=
  match Signing.parseSecretKey secret with
  | .ok key => printLine (Signing.sign key amount destination)
  | .error why => fail (.badKey why)

/-- Pulls a curve earlier. -/
def projectJob (years : UInt32) (series : Option Path) : Job Unit := do
  let bytes ←
    match series with
    | some p => do orFail (← ask (.read p)) (.file .read p)
    | none => do orFail (← ask .input) .input
  match Projection.Series.shiftText? years bytes with
  | some text => printLine text
  | none => fail .badSeries

/-- Does what a command line asks for. -/
def Invocation.job (i : Invocation) : Job Unit :=
  match i.command with
  | .init label balance force => initJob i.state i.settings label balance force
  | .report => do printReport (← loadState i.state)
  | .initiate amount destination signature verify =>
    initiateJob i.state amount destination signature verify
  | .execute => executeJob i.state
  | .keygen directory => keygenJob directory
  | .sign secret amount destination => signJob secret amount destination
  | .format value => printLine (Money.withSign value)
  | .project years series => projectJob years series

/-- Does what the words behind the name of the program ask for. Where they do not fit nothing is
done. -/
def lineProgram (words : List String) : Program (Except Halt (Except Ending Unit)) :=
  match Invocation.ofWords words with
  | .error halt => return .error halt
  | .ok i => do return .ok (← i.job.run)

/-! ## Exit codes -/

def exitCode : Except Ending Unit → UInt32
  | .ok () => 0
  | .error (.failed _) => 2
  | .error (.overflow _) | .error (.unheard _) => 101

def Halt.exitCode : Halt → UInt32
  | .help | .version => 0
  | .invalid => 2

end RetirementVault.Command
