import RetirementVault.Command.Failure
import RetirementVault.Program.Basic

/-!
# Jobs

A job is a program that may end early. The jobs here are the steps commands are put together
from: writing a file so that readers see the old content or the new one, and doing something while
holding a lock.
-/

namespace RetirementVault.Command

open Store

abbrev Job := ExceptT Ending Program

namespace Job

variable {α : Type}

def fail (why : Failure) : Job α :=
  throw (.failed why)

/-- Makes a call that cannot fail. -/
def ask (c : SystemCall) : Job c.Answer :=
  ExceptT.lift (Program.ask c)

/-- The result of a call that can fail; the job ends if it did. -/
def orFail (answer : Except FileFault α) (failure : FileFault → Failure) : Job α :=
  match answer with
  | .ok a => pure a
  | .error why => fail (failure why)

/-- The result of a call on the ledger; the job ends if there is none. -/
def orStop (answer : Except Stop α) : Job α :=
  match answer with
  | .ok a => pure a
  | .error why => throw (.ofStop why)

/-- Says something. A job that cannot make itself heard ends there and then. -/
def say (text : String) : Job Unit := do
  match ← ask (.print text) with
  | .ok () => pure ()
  | .error why => throw (.unheard why)

def printLine (text : String) : Job Unit :=
  say (text ++ "\n")

/-- Whether a path leads to something, as far as can be seen: where the question itself fails,
nothing is taken to be there. -/
def isThere (p : Path) : Job Bool := do
  match ← ask (.isThere p) with
  | .ok there => return there
  | .error _ => return false

def makeParent (p : Path) : Job Unit :=
  match p.parent? with
  | none => pure ()
  | some directory => do orFail (← ask (.makeDirs directory)) (.file .makeDirs directory)

/-- Writes a file: first beside it, then over it in one go. -/
def writeFile (p : Path) (bytes : List UInt8) : Job Unit := do
  makeParent p
  let beside := p.sibling ".tmp"
  orFail (← ask (.create beside)) (.file .create beside)
  orFail (← ask (.append beside bytes)) (.file .write beside)
  orFail (← ask (.sync beside)) (.file .sync beside)
  orFail (← ask (.rename beside p)) (.rename beside p)

/-- Does a job and then makes a call, however the job ends. -/
def andAlways (job : Job α) (c : SystemCall) : Job α :=
  ExceptT.mk do
    let result ← job.run
    let _ ← Program.ask c
    return result

/-- Does a job while holding the lock that lies beside a path. -/
def withLock (p : Path) (job : Job α) : Job α := do
  makeParent p
  let beside := p.sibling ".lock"
  orFail (← ask (.openKept beside)) (.file .openFile beside)
  orFail (← ask (.lock beside)) (.file .lock beside)
  job.andAlways (.unlock beside)

end Job
end RetirementVault.Command
