import RetirementVault.Store.Fault
import RetirementVault.Store.Path

/-!
# Programs

A program is what is left of it to do: either it has its result or it makes one call and goes on
with the answer. So a program is plain data. It can be run on files in memory, on real files, or
step by step among others, and be cut off between any two calls, and it is the same program each
time.
-/

namespace RetirementVault

open Store

/-- What a program can ask of its surroundings. -/
inductive SystemCall where
  /-- Makes a directory and those around it, as far as they are missing. -/
  | makeDirs (p : Path)
  /-- Makes sure that there is a file, and leaves what it holds. -/
  | openKept (p : Path)
  /-- Waits until nobody else holds the lock of a file, and takes it. -/
  | lock (p : Path)
  /-- Gives the lock of a file back. -/
  | unlock (p : Path)
  /-- Asks whether a path leads to something. -/
  | isThere (p : Path)
  /-- Asks for the content of a file. -/
  | read (p : Path)
  /-- Makes an empty file, in place of another if there is one. -/
  | create (p : Path)
  /-- Adds bytes at the end of a file. -/
  | append (p : Path) (bytes : List UInt8)
  /-- Waits until a file is stored for good. -/
  | sync (p : Path)
  /-- Moves a file to another path, in one go. -/
  | rename (source target : Path)
  /-- Asks for the time in milliseconds. -/
  | now
  /-- Asks for bytes that nobody can foresee. -/
  | random (count : Nat)
  /-- Asks for everything that is fed in. -/
  | input
  /-- Says something. -/
  | print (text : String)
  deriving DecidableEq, Repr

/-- What a call is answered with. All that has to do with files or with speaking may fail, but for a
lock that is given back, which is gone either way. -/
abbrev SystemCall.Answer : SystemCall → Type
  | .makeDirs _ | .openKept _ | .lock _ | .create _ | .append _ _ | .sync _ | .rename _ _
  | .print _ => Except FileFault Unit
  | .read _ | .input => Except FileFault (List UInt8)
  | .isThere _ => Except FileFault Bool
  | .now => Nat
  | .random _ => List UInt8
  | .unlock _ => Unit

/-- A program with a result. -/
inductive Program (α : Type) where
  | done (result : α)
  | call (c : SystemCall) (next : c.Answer → Program α)

namespace Program

variable {α β : Type}

/-- A program and then another one that depends on its result. -/
def bind : Program α → (α → Program β) → Program β
  | .done a, f => f a
  | .call c next, f => .call c fun answer => (next answer).bind f

instance : Monad Program where
  pure := .done
  bind := bind

def ask (c : SystemCall) : Program c.Answer :=
  .call c .done

end Program
end RetirementVault
