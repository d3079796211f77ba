import RetirementVault.Proofs.Program.Crowd
import RetirementVault.Proofs.Program.Plain
import RetirementVault.Proofs.Store.Footprint

/-!
# The files a program leaves

A program on its own has the files to itself, so the disk a call finds is the one the call before it
has left. `Leaves` are the runs of such a program: each call is answered as things are, at any time
and with anything fed in, or it fails for a reason of its own and may then have done a part of what
it does (`SystemCall.Turns`). A move has no parts, so one that fails has done nothing.

What holds of all runs is shown with a protocol that allows everything and whose stages are the
disks (`Follows.of_leaves`). The run in a world is one of the runs, on a disk that shows the tree of
the world (`leaves_run`).
-/

set_option autoImplicit false

namespace RetirementVault

open Store

/-- What a call may make of the files, by what it is answered with. -/
def SystemCall.Turns (d e : Disk) : (c : SystemCall) → c.Answer → Prop
  | .makeDirs p, _ => d.GainsOnWay p e
  | .openKept p, _ => d.GainsAtEnd p e
  | .create p, _ | .append p _, _ => d.Written p e
  | .rename source target, .ok () => d.Moves source target e
  | .rename _ _, .error _ | .lock _, _ | .unlock _, _ | .isThere _, _ | .read _, _ | .sync _, _
  | .now, _ | .random _, _ | .input, _ | .print _, _ => e = d

theorem SystemCall.turns_answerOn (w : World) (d : Disk) (c : SystemCall) :
    c.Turns d (w.answerOn d c).2.1 (w.answerOn d c).1 := by
  cases c with
  | makeDirs p => exact d.gains_makeDirs p
  | openKept p => exact d.gains_openKept p
  | create p => exact d.written_writeWith p _
  | append p bytes => exact d.written_writeWith p _
  | rename source target =>
    show SystemCall.Turns d (d.rename source target).2 (.rename source target)
      (d.rename source target).1
    rcases d.rename_cases source target with ⟨why, hrename⟩ | ⟨hok, hmoves⟩
    · rw [hrename]
      rfl
    · rw [hok]
      exact hmoves
  | lock | unlock | isThere | read | sync | now | random | input | print => rfl

/-- How a call can turn out: its answer and the disk it leaves. -/
inductive Turnout (d : Disk) (c : SystemCall) : c.Answer → Disk → Prop
  /-- It is answered as things are. -/
  | truly (w : World) : Turnout d c (w.answerOn d c).1 (w.answerOn d c).2.1
  /-- It fails for a reason of its own, having done what it does in part or not at all. -/
  | mishap {answer : c.Answer} {why : FileFault} {e : Disk} (fault : c.fault? answer = some why)
    (turns : c.Turns d e answer) : Turnout d c answer e

namespace Turnout

variable {d e : Disk} {c : SystemCall} {answer : c.Answer}

theorem turns (h : Turnout d c answer e) : c.Turns d e answer := by
  cases h with
  | truly w => exact c.turns_answerOn w d
  | mishap _ turns => exact turns

/-- An answer without a fault is that of a world. -/
theorem of_fault?_none (h : Turnout d c answer e) (hfault : c.fault? answer = none) :
    ∃ w : World, answer = (w.answerOn d c).1 ∧ e = (w.answerOn d c).2.1 := by
  cases h with
  | truly w => exact ⟨w, rfl, rfl⟩
  | mishap fault => exact absurd (hfault.symm.trans fault) (by simp)

end Turnout

namespace Program

variable {α : Type} {d e : Disk}

/-- A run of a program that has the files to itself: its result and the disk it leaves. -/
inductive Leaves : Program α → Disk → α → Disk → Prop
  | done (a : α) (d : Disk) : Leaves (.done a) d a d
  | call {c : SystemCall} {next : c.Answer → Program α} {d v e : Disk} {answer : c.Answer} {a : α}
    (turnout : Turnout d c answer v) (rest : Leaves (next answer) v a e) :
    Leaves (.call c next) d a e

theorem leaves_runOn (p : Program α) (d : Disk) (w : World) :
    p.Leaves d (p.runOn d w).1 (p.runOn d w).2.1 := by
  induction p generalizing d w with
  | done a => exact .done a d
  | call c next ih => exact .call (.truly w) (ih _ _ _)

/-- **The run in a world** is one of the runs. -/
theorem leaves_run (p : Program α) (w : World) :
    ∃ e, p.Leaves (.ofTree w.tree) (p.run w).1 e ∧ e.Shows (p.run w).2.tree := by
  obtain ⟨u, hshows, hrun⟩ := p.runOn_eq w (Disk.shows_ofTree w.tree)
  rw [show p.run w = _ from hrun]
  exact ⟨_, p.leaves_runOn _ w, hshows⟩

theorem leaves_bind {β : Type} {p : Program α} {f : α → Program β} {b : β}
    (h : (p.bind f).Leaves d b e) : ∃ a v, p.Leaves d a v ∧ (f a).Leaves v b e := by
  induction p generalizing d with
  | done a => exact ⟨a, d, .done a d, h⟩
  | call c next ih =>
    cases h with
    | call turnout rest =>
      obtain ⟨a, v, hfirst, hthen⟩ := ih _ rest
      exact ⟨a, v, .call turnout hfirst, hthen⟩

/-- The protocol of a program that has the files to itself. -/
def alone : Protocol Disk where
  allows _ _ := True
  goes d _ answer e := Turnout d _ answer e

theorem Follows.of_leaves {p : Program α} {post : α → Disk → Prop} {a : α}
    (h : p.Follows alone post d) (hrun : p.Leaves d a e) : post a e := by
  induction hrun with
  | done a d => exact h
  | call turnout _ ih => exact ih (h.2 _ _ turnout)

end Program
end RetirementVault
