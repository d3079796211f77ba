import RetirementVault.Proofs.Command.Effect

/-!
# What a command says

A command speaks when its work is done and at no other time. Everything before that is a program
without a call that speaks (`IsSilent`), so how a run of it goes does not matter. What is said then
follows from the ledger's answer, and so does the sentence a command ends with that is refused:
where no call on the files has failed, the ledger's answer is all there is to tell (`Tells`).
-/

set_option autoImplicit false

namespace RetirementVault

open Store

/-- A program that says nothing. -/
def Program.IsSilent {α : Type} : Program α → Prop
  | .done _ => True
  | .call c next => (∀ text, c ≠ .print text) ∧ ∀ answer, (next answer).IsSilent

theorem Answers.output_eq {kept : Location} {w v : World} {c : SystemCall} {answer : c.Answer}
    (h : Answers kept w c answer v) (hsilent : ∀ text, c ≠ .print text) :
    v.output = w.output := by
  cases h with
  | mishap => rfl
  | truly =>
    cases c with
    | print text => exact absurd rfl (hsilent text)
    | makeDirs | openKept | create | append | rename => rfl
    | lock | unlock | isThere | read | sync | now | random | input => rfl

namespace Program

variable {kept : Location} {α β : Type} {w u : World} {faults : List Mishap}

theorem IsSilent.bind {p : Program α} {f : α → Program β} (h : p.IsSilent)
    (hf : ∀ a, (f a).IsSilent) : (p.bind f).IsSilent := by
  induction p with
  | done a => exact hf a
  | call c next ih => exact ⟨h.1, fun answer => ih answer (h.2 answer)⟩

/-- **What has been said stays as it is in every run of a silent program.** -/
theorem IsSilent.output_eq {p : Program α} {a : α} (h : p.IsSilent)
    (hruns : Runs kept p w faults a u) : u.output = w.output := by
  induction hruns with
  | done => rfl
  | call answered _ ih => exact (ih (h.2 _)).trans (answered.output_eq h.1)

end Program

namespace Command.Job

variable {kept : Location} {α β : Type} {w u : World} {faults : List Mishap}

def IsSilent (job : Job α) : Prop :=
  Program.IsSilent job.run

theorem silent_pure (a : α) : IsSilent (pure a : Job α) :=
  trivial

theorem silent_throw (e : Ending) : IsSilent (throw e : Job α) :=
  trivial

theorem silent_ask {c : SystemCall} (h : ∀ text, c ≠ .print text) : IsSilent (ask c) :=
  ⟨h, fun _ => trivial⟩

theorem IsSilent.bind {job : Job α} {k : α → Job β} (h : IsSilent job) (hk : ∀ a, IsSilent (k a)) :
    IsSilent (job >>= k) := by
  refine Program.IsSilent.bind h ?_
  intro result
  cases result with
  | error e => trivial
  | ok a => exact hk a

theorem silent_orFail (answer : Except FileFault α) (failure : FileFault → Failure) :
    IsSilent (orFail answer failure) := by
  cases answer with
  | error why => trivial
  | ok a => trivial

theorem silent_orStop (answer : Except Stop α) : IsSilent (orStop answer) := by
  cases answer with
  | error why => trivial
  | ok a => trivial

/-- A call that may end the job, made where nothing is said. -/
theorem silent_tried {c : SystemCall} {view : c.Answer → Except FileFault α}
    {failure : FileFault → Failure} (h : ∀ text, c ≠ .print text) :
    IsSilent (ask c >>= fun answer => orFail (view answer) failure) :=
  (silent_ask h).bind fun _ => silent_orFail _ _

theorem silent_makeParent (p : Path) : IsSilent (makeParent p) := by
  unfold makeParent
  split
  · exact silent_pure ()
  · exact silent_tried (by simp)

theorem silent_writeFile (p : Path) (bytes : List UInt8) : IsSilent (writeFile p bytes) := by
  refine (silent_makeParent p).bind fun _ => ?_
  refine (silent_ask (by simp)).bind fun _ => (silent_orFail _ _).bind fun _ => ?_
  refine (silent_ask (by simp)).bind fun _ => (silent_orFail _ _).bind fun _ => ?_
  refine (silent_ask (by simp)).bind fun _ => (silent_orFail _ _).bind fun _ => ?_
  exact silent_tried (by simp)

theorem silent_withLock {p : Path} {job : Job α} (h : IsSilent job) :
    IsSilent (withLock p job) := by
  refine (silent_makeParent p).bind fun _ => ?_
  refine (silent_ask (by simp)).bind fun _ => (silent_orFail _ _).bind fun _ => ?_
  refine (silent_ask (by simp)).bind fun _ => (silent_orFail _ _).bind fun _ => ?_
  refine Program.IsSilent.bind h fun _ => ?_
  exact ⟨by simp, fun _ => trivial⟩

theorem silent_loadState (state : Path) : IsSilent (loadState state) := by
  refine (silent_ask (by simp)).bind fun _ => (silent_orFail _ _).bind fun bytes => ?_
  split
  · exact silent_pure _
  · exact silent_throw _

/-- Where nothing fails, what is to be said is said. -/
theorem runs_say {text : String} {r : Except Ending Unit} (h : Runs kept (say text) w [] r u) :
    r = .ok () ∧ u.output = w.output ++ text := by
  obtain ⟨answer, v, late, hanswers, hrest, hnil⟩ := runs_ask (c := .print text) h
  obtain ⟨hmet, rfl⟩ := List.append_eq_nil_iff.mp hnil.symm
  cases answer with
  | error why => exact absurd hmet (List.cons_ne_nil _ _)
  | ok done =>
    obtain ⟨_, rfl⟩ := hanswers.eq_of_fault?_none rfl
    obtain ⟨_, hr, rfl⟩ := runs_pure_iff.mp hrest
    exact ⟨hr, rfl⟩

end Command.Job

namespace Command

open Job

variable {α β : Type} {w u : World} {state : Path}

/-! ## Where no call fails -/

/-- A job that answers a call on the ledger and keeps what the call has left. -/
theorem runs_answered {answer : Except Stop α} {after : Ledger} {told : α → β}
    {r : Except Ending β}
    (h : Runs state.place
      (orStop answer >>= fun a => saveState state after >>= fun _ => pure (told a)) w [] r u) :
    r = (answer.mapError Ending.ofStop).map told := by
  cases answer with
  | error why => exact (runs_throw_iff.mp h).2.1
  | ok a =>
    have h : Runs state.place (saveState state after >>= fun _ => pure (told a)) w [] r u := h
    rcases runs_bind_iff.mp h with ⟨e, _, hsave⟩ | ⟨_, v, early, late, _, hdone, _⟩
    · rcases runs_writeFile hsave with hfailed | ⟨_, hok, _⟩
      · exact absurd rfl hfailed.met
      · exact absurd hok (by simp)
    · exact (runs_pure_iff.mp hdone).2.1

/-- Where no call fails, what is done under the lock is done, and to the ledger that is kept. -/
theorem runs_locked {job : Ledger → Job α} {l : Ledger} {r result : Except Ending α}
    (h : Runs state.place (withLock state (loadState state >>= job)) w [] r u)
    (hkept : keptLedger? w.tree state.place = some l)
    (hjob : ∀ v, v.now = w.now → Runs state.place (job l) v [] r u → r = result) : r = result := by
  rcases runs_withLock h with hfailed | ⟨v, hstored, hnow, _, hrun⟩
  · exact absurd rfl hfailed.met
  have hfound : keptLedger? v.tree state.place = some l := by
    rw [← hkept, keptLedger?, keptLedger?, hstored]
  rcases runs_loadState hrun with hfailed | ⟨_, _, hnone⟩ | ⟨other, hother, hrest⟩
  · exact absurd rfl hfailed.met
  · cases hfound.symm.trans hnone
  · obtain rfl := Option.some.inj (hother.symm.trans hfound)
    exact hjob v hnow hrest

/-- How a command ends that has made a call on the ledger: it ends with the ledger's own objection,
or it has said what has been granted and shown the ledger that is left. -/
inductive Tells (notice : α → String) (w u : World) :
    Except Stop α × Ledger → Except Ending Unit → Prop
  | refused {why : Stop} {after : Ledger} :
    Tells notice w u (.error why, after) (.error (.ofStop why))
  | granted {a : α} {after : Ledger}
    (said : u.output = w.output ++ (notice a ++ "\n") ++ reportText after) :
    Tells notice w u (.ok a, after) (.ok ())

/-- What is said after a silent job is what there is to tell. -/
theorem tells_of_silent {job : Job (β × Ledger)} {spoken : β → String} (told : α → β)
    {answer : Except Stop α} {after : Ledger} {r : Except Ending Unit}
    (h : Runs state.place (job >>= fun x => printLine (spoken x.1) >>= fun _ => printReport x.2)
      w [] r u) (hsilent : IsSilent job)
    (hjob : ∀ r v, Runs state.place job w [] r v →
      r = (answer.mapError Ending.ofStop).map fun a => (told a, after)) :
    Tells (fun a => spoken (told a)) w u (answer, after) r := by
  rcases runs_bind_iff.mp h with ⟨e, rfl, hrun⟩ | ⟨x, v, early, late, hrun, hsays, hnil⟩
  · have hresult := hjob _ _ hrun
    cases answer with
    | error why =>
      obtain rfl : e = .ofStop why := Except.error.inj hresult
      exact .refused
    | ok a => exact nomatch hresult
  · obtain ⟨rfl, rfl⟩ := List.append_eq_nil_iff.mp hnil.symm
    have hresult := hjob _ _ hrun
    cases answer with
    | error why => exact nomatch hresult
    | ok a =>
      obtain rfl : x = (told a, after) := Except.ok.inj hresult
      rcases runs_bind_iff.mp hsays with ⟨e, _, hline⟩ | ⟨_, v', _, _, hline, hreport, hnil'⟩
      · exact nomatch (runs_say hline).1
      · obtain ⟨rfl, rfl⟩ := List.append_eq_nil_iff.mp hnil'.symm
        obtain ⟨rfl, hsaid⟩ := runs_say hreport
        refine .granted ?_
        rw [hsaid, (runs_say hline).2, hsilent.output_eq hrun]

/-! ## The commands -/

/-- **Settling** tells what the ledger answers. -/
theorem tells_executeJob {l : Ledger} {r : Except Ending Unit}
    (h : Runs state.place (executeJob state) w [] r u)
    (hkept : keptLedger? w.tree state.place = some l) :
    Tells (fun x => x.2.settledNotice) w u l.settle r := by
  refine tells_of_silent Prod.snd h ?_ ?_
  · refine silent_withLock ((silent_loadState state).bind fun l => ?_)
    exact (silent_orStop _).bind fun _ => (silent_writeFile _ _).bind fun _ => silent_pure _
  · intro r v hrun
    exact runs_locked hrun hkept fun v _ hjob => runs_answered hjob

/-- **Reserving** tells what the ledger answers, if the amount can be read. -/
theorem tells_initiateJob {l : Ledger} {amount destination signature : String} {verify : Bool}
    {r : Except Ending Unit}
    (h : Runs state.place (initiateJob state amount destination signature verify) w [] r u)
    (hkept : keptLedger? w.tree state.place = some l) :
    (∃ why, parseAmount amount = .error why ∧ r = .error (.failed (.refused why))) ∨
      ∃ sats, parseAmount amount = .ok sats ∧
        Tells Operation.reservedNotice w u
          (l.initiateVerified (verifier verify) w.now { amount := sats, destination, signature })
          r := by
  unfold initiateJob at h
  cases hamount : parseAmount amount with
  | error why =>
    rw [hamount] at h
    exact .inl ⟨why, rfl, (runs_throw_iff.mp h).2.1⟩
  | ok sats =>
    rw [hamount] at h
    refine .inr ⟨sats, rfl, ?_⟩
    refine tells_of_silent id h ?_ ?_
    · refine silent_withLock ((silent_loadState state).bind fun l => ?_)
      refine (silent_ask (by simp)).bind fun now => ?_
      exact (silent_orStop _).bind fun _ => (silent_writeFile _ _).bind fun _ => silent_pure _
    · intro r v hrun
      refine runs_locked hrun hkept fun v hnow hjob => ?_
      obtain ⟨now, v', late, hanswers, hrest, hnil⟩ := runs_ask hjob
      obtain ⟨rfl, _⟩ := hanswers.eq_of_fault?_none rfl
      obtain ⟨_, rfl⟩ := List.append_eq_nil_iff.mp hnil.symm
      rw [← hnow]
      exact runs_answered hrest

end Command
end RetirementVault
