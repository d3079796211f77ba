import RetirementVault.Program.World
import RetirementVault.Proofs.Store.Plain

/-!
# Running on a disk without links

A program does in a world what it does on a disk that shows the tree of the world: call by call it
is given the same answers (`answerOn_eq`), so it has the same result, says the same and leaves a
disk that shows the tree it leaves (`runOn_eq`).
-/

set_option autoImplicit false

namespace RetirementVault

open Store

variable {d : Disk} {t : Tree}

/-- **A call is answered alike.** -/
theorem World.answerOn_eq (w : World) (h : d.Shows t) (c : SystemCall) :
    ∃ u, (w.answerOn d c).2.1.Shows u ∧
      { w with tree := t }.answer c =
        ((w.answerOn d c).1, { (w.answerOn d c).2.2 with tree := u }) := by
  cases c with
  | makeDirs p => exact ⟨_, (h.makeDirs p).2, Prod.ext (h.makeDirs p).1.symm rfl⟩
  | openKept p => exact ⟨_, (h.writeWith p _).2, Prod.ext (h.writeWith p _).1.symm rfl⟩
  | create p => exact ⟨_, (h.writeWith p _).2, Prod.ext (h.writeWith p _).1.symm rfl⟩
  | append p bytes => exact ⟨_, (h.writeWith p _).2, Prod.ext (h.writeWith p _).1.symm rfl⟩
  | rename source target =>
    exact ⟨_, (h.rename source target).2, Prod.ext (h.rename source target).1.symm rfl⟩
  | isThere p => exact ⟨t, h, Prod.ext (congrArg Except.ok (h.isThere_eq p).symm) rfl⟩
  | read p => exact ⟨t, h, Prod.ext (h.read_eq p).symm rfl⟩
  | lock | unlock | sync | now | random | input | print => exact ⟨t, h, rfl⟩

/-- **A program runs alike** on a disk without links and in a tree. -/
theorem Program.runOn_eq {α : Type} (p : Program α) (w : World) (h : d.Shows t) :
    ∃ u, (p.runOn d w).2.1.Shows u ∧
      p.run { w with tree := t } = ((p.runOn d w).1, { (p.runOn d w).2.2 with tree := u }) := by
  induction p generalizing d t w with
  | done a => exact ⟨t, h, rfl⟩
  | call c next ih =>
    obtain ⟨u, hshows, hanswer⟩ := w.answerOn_eq h c
    rw [run, runOn, hanswer]
    exact ih _ _ hshows

end RetirementVault
