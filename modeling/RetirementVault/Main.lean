import RetirementVault.Command.Run
import Std.Time.DateTime.Timestamp

/-!
# The program

Carries out command lines on real files. What a command does is a `Program`; this file makes its
calls one by one and decides nothing.
-/

namespace RetirementVault.Main

open Store Command

/-- The fault an error of the operating system stands for. -/
def faultOf : IO.Error → FileFault
  | .noFileOrDirectory .. => .notFound
  | .alreadyExists .. => .alreadyExists
  | .resourceBusy .. => .busy
  | .inappropriateType _ 21 _ => .isDirectory
  | .inappropriateType .. => .notDirectory
  | .invalidArgument _ 36 _ => .nameTooLong
  | e => .other (toString e)

/-- The result of an action, or the fault it ended with. -/
def attempt {α : Type} (action : IO α) : IO (Except FileFault α) := do
  match ← action.toBaseIO with
  | .ok a => return .ok a
  | .error e => return .error (faultOf e)

/-- Makes a call on real files. The lock that is held, if any, is kept beside. -/
def answer (held : IO.Ref (Option IO.FS.Handle)) : (c : SystemCall) → IO c.Answer
  | .makeDirs p => attempt (IO.FS.createDirAll p)
  | .openKept p => attempt do
    let _ ← IO.FS.Handle.mk p .append
  | .lock p => attempt do
    let handle ← IO.FS.Handle.mk p .append
    handle.lock
    held.set (some handle)
  | .unlock _ => do
    if let some handle ← held.get then handle.unlock
    held.set none
  | .isThere p => do
    -- A path that leads to something can be made a real one, and nothing is opened by that.
    match ← attempt (IO.FS.realPath p) with
    | .ok _ => return .ok true
    | .error .notFound | .error .notDirectory => return .ok false
    | .error why => return .error why
  | .read p => attempt do return (← IO.FS.readBinFile p).toList
  | .create p => attempt do
    let _ ← IO.FS.Handle.mk p .write
  | .append p bytes => attempt do
    let handle ← IO.FS.Handle.mk p .append
    handle.write (ByteArray.mk bytes.toArray)
    handle.flush
  -- There is no call for this: when the bytes reach the disk is left to the system.
  | .sync _ => return .ok ()
  | .rename source target => attempt (IO.FS.rename source target)
  | .now => do return (← Std.Time.Timestamp.now).toMillisecondsSinceUnixEpoch.toInt.toNat
  | .random count => do return (← IO.getRandomBytes (USize.ofNat count)).toList
  | .input => attempt do return (← IO.FS.readBinFile "/dev/stdin").toList
  | .print text => attempt do
    let out ← IO.getStdout
    out.putStr text
    out.flush

/-- What is told of a call if much is to be told. -/
def remark? : SystemCall → Option String
  | .lock p => some ("locked " ++ p)
  | .rename _ target => some ("written " ++ target)
  | _ => none

/-- Carries out a program on real files. -/
def perform {α : Type} (held : IO.Ref (Option IO.FS.Handle)) (verbose : Bool) :
    Program α → IO α
  | .done a => return a
  | .call c next => do
    let a ← answer held c
    if verbose then
      if let some remark := remark? c then IO.eprintln ("DEBUG " ++ remark)
    perform held verbose (next a)

def helpText : String :=
  "Planned withdrawals from a vault: reserve funds, then settle them.\n\n"
    ++ "Commands: " ++ ", ".intercalate (forms.map Form.word) ++ ", " ++ helpWord ++ "\n"
    ++ "Options:  --state PATH, --config PATH, --verbose, --help, --version\n"

def versionText : String := "inssats 0.1.0\n"

def usageText : String := "error: the arguments do not fit; try --help\n"

/-- Carries out a command line and answers with its exit code. -/
def carryOut (words : List String) : IO UInt32 := do
  let held ← IO.mkRef none
  let verbose := match Invocation.ofWords words with
    | .error _ => false
    | .ok invocation => invocation.verbose
  match ← perform held verbose (lineProgram words) with
  | .error halt =>
    match halt with
    | .help => IO.print helpText
    | .version => IO.print versionText
    | .invalid => IO.eprint usageText
    return halt.exitCode
  | .ok result =>
    match result with
    | .error (.failed why) => IO.eprintln ("ERROR " ++ why.message)
    | .error (.overflow which) => IO.eprintln which.message
    | .error (.unheard why) => IO.eprintln (unheardMessage why)
    | .ok () => pure ()
    return exitCode result

end RetirementVault.Main

def main (words : List String) : IO UInt32 :=
  RetirementVault.Main.carryOut words
