import RetirementVault.Program.Basic
import RetirementVault.Store.Disk

/-!
# Running a program in memory

A world is what the calls of one program are about: a tree of files, what is fed in, what has been
said, the time and a supply of random bytes. One program has the world to itself, so a lock is
always free, and time stands still while it runs.
-/

namespace RetirementVault

open Store

structure World where
  tree : Tree
  /-- What is fed in. -/
  input : List UInt8 := []
  /-- What has been said. -/
  output : String := ""
  /-- The time in milliseconds. -/
  now : Nat := 0
  /-- The random bytes that come next; after them there are zeros. -/
  random : List UInt8 := []
  deriving DecidableEq, Repr

namespace World

/-- The answer to a change of files and the world with the changed files. -/
def changed (w : World) (result : Except FileFault Unit × Tree) : Except FileFault Unit × World :=
  (result.1, { w with tree := result.2 })

def answer (w : World) : (c : SystemCall) → c.Answer × World
  | .makeDirs p => w.changed (w.tree.makeDirs p)
  | .openKept p => w.changed (w.tree.openKept p)
  | .lock _ => (.ok (), w)
  | .unlock _ => ((), w)
  | .isThere p => (.ok (w.tree.isThere p), w)
  | .read p => (w.tree.read p, w)
  | .create p => w.changed (w.tree.create p)
  | .append p bytes => w.changed (w.tree.append p bytes)
  | .sync _ => (.ok (), w)
  | .rename source target => w.changed (w.tree.rename source target)
  | .now => (w.now, w)
  | .random count =>
    (w.random.take count ++ List.replicate (count - w.random.length) 0,
      { w with random := w.random.drop count })
  | .input => (.ok w.input, { w with input := [] })
  | .print text => (.ok (), { w with output := w.output ++ text })

/-- Answers a call where the files are on a disk. The tree of the world is not asked. -/
def answerOn (w : World) (d : Disk) : (c : SystemCall) → c.Answer × Disk × World
  | .makeDirs p => ((d.makeDirs p).1, (d.makeDirs p).2, w)
  | .openKept p => ((d.openKept p).1, (d.openKept p).2, w)
  | .isThere p => (.ok (d.isThere p), d, w)
  | .read p => (d.read p, d, w)
  | .create p => ((d.create p).1, (d.create p).2, w)
  | .append p bytes => ((d.append p bytes).1, (d.append p bytes).2, w)
  | .rename source target => ((d.rename source target).1, (d.rename source target).2, w)
  | .lock _ | .sync _ => (.ok (), d, w)
  | .unlock _ => ((), d, w)
  | .now => (w.now, d, w)
  | .random count => ((w.answer (.random count)).1, d, (w.answer (.random count)).2)
  | .input => ((w.answer .input).1, d, (w.answer .input).2)
  | .print text => ((w.answer (.print text)).1, d, (w.answer (.print text)).2)

end World

def Program.run {α : Type} : Program α → World → α × World
  | .done a, w => (a, w)
  | .call c next, w => (next (w.answer c).1).run (w.answer c).2

/-- Runs a program in a world where the files are on a disk. -/
def Program.runOn {α : Type} : Program α → Disk → World → α × Disk × World
  | .done a, d, w => (a, d, w)
  | .call c next, d, w =>
    (next (w.answerOn d c).1).runOn (w.answerOn d c).2.1 (w.answerOn d c).2.2

end RetirementVault
