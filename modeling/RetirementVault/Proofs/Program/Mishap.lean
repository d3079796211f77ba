import RetirementVault.Program.World
import RetirementVault.Proofs.Store.Stored

/-!
# Runs in which calls may fail

A world answers every call as things are. A real store may also fail where nothing was wrong: it is
full, the disk is broken, a permission is missing; and what is said may not be heard. `Runs` lets
that happen at any call that has failures among its answers, and lets a call that fails leave
whatever it likes behind, except at one location: what is stored there is as it was. What a run then
does is up to the program.

The faults that were met are part of a run, each with the call that met it. So it can be said of a
run that every call succeeded: there are none.
-/

set_option autoImplicit false

namespace RetirementVault

open Store

/-! ## Calls -/

def Store.faultIn? {α : Type} : Except FileFault α → Option FileFault
  | .error why => some why
  | .ok _ => none

theorem Store.eq_error_of_faultIn? {α : Type} {answer : Except FileFault α}
    (h : (faultIn? answer).isSome = true) : ∃ why, answer = .error why := by
  cases answer with
  | error why => exact ⟨why, rfl⟩
  | ok a => exact absurd h (by simp [faultIn?])

/-- A call that has failed, with what was wrong. -/
abbrev Mishap := SystemCall × FileFault

namespace SystemCall

def fault? : (c : SystemCall) → c.Answer → Option FileFault
  | .makeDirs _ | .openKept _ | .lock _ => faultIn?
  | .create _ | .append _ _ | .sync _ | .rename _ _ | .print _ => faultIn?
  | .read _ | .input | .isThere _ => faultIn?
  | .now | .random _ | .unlock _ => fun _ => none

/-- The mishap in an answer, if there is one. -/
def met (c : SystemCall) (answer : c.Answer) : List Mishap :=
  (c.fault? answer).toList.map (c, ·)

theorem met_of_none {c : SystemCall} {answer : c.Answer} (h : c.fault? answer = none) :
    c.met answer = [] := by
  rw [met, h]
  rfl

theorem met_of_some {c : SystemCall} {answer : c.Answer} {why : FileFault}
    (h : c.fault? answer = some why) : c.met answer = [(c, why)] := by
  rw [met, h]
  rfl

/-- The paths a call can change a file at. -/
def writes : SystemCall → List Path
  | .openKept p | .create p | .append p _ => [p]
  | .rename source target => [source, target]
  | .makeDirs _ | .lock _ | .unlock _ | .isThere _ | .read _ | .sync _ | .now | .random _ | .input
  | .print _ => []

end SystemCall

/-- How a call can be answered while a location is left alone by everything that fails. -/
inductive Answers (kept : Location) (w : World) (c : SystemCall) : c.Answer → World → Prop
  /-- It is answered as things are. -/
  | truly : Answers kept w c (w.answer c).1 (w.answer c).2
  /-- It fails for a reason of its own. -/
  | mishap {answer : c.Answer} {why : FileFault} {tree : Tree} (fault : c.fault? answer = some why)
    (stored : tree.stored kept = w.tree.stored kept) : Answers kept w c answer { w with tree }

namespace Answers

variable {kept : Location} {w v : World} {c : SystemCall} {answer : c.Answer}

/-- An answer without a fault is that of the world. -/
theorem eq_of_fault?_none (h : Answers kept w c answer v) (hfault : c.fault? answer = none) :
    answer = (w.answer c).1 ∧ v = (w.answer c).2 := by
  cases h with
  | truly => exact ⟨rfl, rfl⟩
  | mishap fault => exact absurd (hfault.symm.trans fault) (by simp)

/-- **A call changes a stored file only if it writes there and succeeds.** -/
theorem stored_eq (h : Answers kept w c answer v)
    (hsafe : (∀ p ∈ c.writes, p.place ≠ kept) ∨ (c.fault? answer).isSome = true) :
    v.tree.stored kept = w.tree.stored kept := by
  cases h with
  | mishap _ stored => exact stored
  | truly =>
    cases c with
    | makeDirs p => exact Tree.stored_makeDirs _ _ _
    | openKept p | create p | append p bytes =>
      rcases hsafe with hother | hfault
      · exact Tree.stored_writeWith_of_ne _ (hother p (by simp [SystemCall.writes])).symm
      · obtain ⟨why, hanswer⟩ := eq_error_of_faultIn? hfault
        exact congrArg (·.stored kept) (Tree.writeWith_eq_error hanswer)
    | rename source target =>
      -- Both ends are written to, so a move that succeeds has to have both of them elsewhere.
      rcases Tree.rename_cases w.tree source target with ⟨why, hrename⟩ | hmoved
      · exact congrArg (·.2.stored kept) hrename
      · obtain ⟨content, _, _, hrename⟩ := hmoved
        rcases hsafe with hother | hfault
        · have hsource := hother source (by simp [SystemCall.writes])
          have htarget := hother target (by simp [SystemCall.writes])
          have hstored := (Tree.stored_put_of_ne htarget.symm (t := w.tree.erase source.place)
            (.file content)).trans (Tree.stored_erase_of_ne hsource.symm)
          exact (congrArg (·.2.stored kept) hrename).trans hstored
        · obtain ⟨why, hanswer⟩ := eq_error_of_faultIn? hfault
          exact absurd (hanswer.symm.trans (congrArg (·.1) hrename)) (by simp)
    | lock | unlock | isThere | read | sync | now | random | input | print => rfl

end Answers

/-! ## Programs -/

/-- A run of a program: the faults it met, its result and the world it leaves. -/
inductive Program.Runs (kept : Location) {α : Type} :
    Program α → World → List Mishap → α → World → Prop
  | done (a : α) (w : World) : Runs kept (.done a) w [] a w
  | call {c : SystemCall} {next : c.Answer → Program α} {w v u : World} {answer : c.Answer}
    {faults : List Mishap} {a : α} (answered : Answers kept w c answer v)
    (rest : Runs kept (next answer) v faults a u) :
    Runs kept (.call c next) w (c.met answer ++ faults) a u

namespace Program

variable {kept : Location} {α β : Type}

theorem runs_bind_iff {p : Program α} {f : α → Program β} {w u : World}
    {faults : List Mishap} {b : β} : Runs kept (p.bind f) w faults b u ↔
      ∃ a v early late, Runs kept p w early a v ∧ Runs kept (f a) v late b u ∧
        faults = early ++ late := by
  constructor
  · intro h
    induction p generalizing w faults with
    | done a => exact ⟨a, w, [], faults, .done a w, h, rfl⟩
    | call c next ih =>
      cases h with
      | call answered rest =>
        obtain ⟨a, v, early, late, hfirst, hthen, rfl⟩ := ih _ rest
        exact ⟨a, v, _, late, .call answered hfirst, hthen, (List.append_assoc ..).symm⟩
  · rintro ⟨a, v, early, late, hfirst, hthen, rfl⟩
    induction hfirst with
    | done a w => exact hthen
    | call answered _ ih =>
      rw [List.append_assoc]
      exact .call answered (ih hthen)

theorem runs_ask_iff {c : SystemCall} {w v : World} {faults : List Mishap}
    {answer : c.Answer} :
    Runs kept (ask c) w faults answer v ↔ Answers kept w c answer v ∧ faults = c.met answer := by
  constructor
  · intro h
    cases h with
    | call answered rest =>
      cases rest with
      | done => exact ⟨answered, List.append_nil _⟩
  · rintro ⟨answered, rfl⟩
    rw [← List.append_nil (c.met answer)]
    exact .call answered (.done _ _)

/-- The faults of a run in which every call is answered as things are. -/
def faults : Program α → World → List Mishap
  | .done _, _ => []
  | .call c next, w => c.met (w.answer c).1 ++ (next (w.answer c).1).faults (w.answer c).2

/-- The run in a world is one of the runs. -/
theorem runs_run (p : Program α) (w : World) :
    Runs kept p w (p.faults w) (p.run w).1 (p.run w).2 := by
  induction p generalizing w with
  | done a => exact .done a w
  | call c next ih => exact .call .truly (ih _ _)

end Program
end RetirementVault
