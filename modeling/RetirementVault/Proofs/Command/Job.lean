import RetirementVault.Command.Run
import RetirementVault.Proofs.Program.Mishap

/-!
# What the jobs do to the state file

Runs of the jobs that commands are made of, followed from the front: each lemma takes the first
step off a run and says how it can have gone. Either a call failed, and then the job has ended and
the file at the kept place is as it was (`Failed`), or it went well and the rest of the job runs on
in a world that is described. A question whether something is there does not end a job where it
fails: it is taken for answered with no.

The place that is kept is that of the state file itself. Of all the calls only the last one of
`writeFile` writes there, and nothing can go wrong with the file after it. What can still go wrong
is that nobody hears what is said (`Speaks`).
-/

set_option autoImplicit false

namespace RetirementVault.Command

open Store

/-! ## Endings -/

/-- An ending that comes before everything is done. -/
def Ending.IsEarly : Ending → Prop
  | .failed _ | .overflow _ => True
  | .unheard _ => False

/-- A job has done what it is for: it has gone through, or nothing but its last words is missing. -/
def IsDone : Except Ending Unit → Prop
  | .ok () => True
  | .error e => ¬ e.IsEarly

theorem Ending.IsEarly.not_isDone {e : Ending} (h : e.IsEarly) : ¬ IsDone (.error e) :=
  fun hdone => hdone h

theorem Ending.isEarly_ofStop (why : Stop) : (Ending.ofStop why).IsEarly := by
  cases why with
  | refused | overflow => trivial

namespace Job

variable {kept : Location} {α β γ : Type} {w u : World} {faults : List Mishap}

/-- A run of a job. -/
abbrev Runs (kept : Location) (job : Job α) (w : World) (faults : List Mishap)
    (r : Except Ending α) (u : World) : Prop :=
  Program.Runs kept job.run w faults r u

/-! ## Jobs in sequence -/

/-- A sequence ends where its first part ends early, and otherwise goes on with the second. -/
theorem runs_bind_iff {job : Job α} {k : α → Job β} {r : Except Ending β} :
    Runs kept (job >>= k) w faults r u ↔
      (∃ e, r = .error e ∧ Runs kept job w faults (.error e) u) ∨
      ∃ a v early late, Runs kept job w early (.ok a) v ∧ Runs kept (k a) v late r u ∧
        faults = early ++ late := by
  show Program.Runs kept (job.run.bind _) w faults r u ↔ _
  rw [Program.runs_bind_iff]
  constructor
  · rintro ⟨a, v, early, late, hfirst, hthen, rfl⟩
    cases a with
    | error e =>
      cases hthen with
      | done => exact .inl ⟨e, rfl, (List.append_nil early).symm ▸ hfirst⟩
    | ok a => exact .inr ⟨a, v, early, late, hfirst, hthen, rfl⟩
  · rintro (⟨e, rfl, hfirst⟩ | ⟨a, v, early, late, hfirst, hthen, rfl⟩)
    · exact ⟨_, _, faults, [], hfirst, .done _ _, (List.append_nil faults).symm⟩
    · exact ⟨_, v, early, late, hfirst, hthen, rfl⟩

theorem runs_pure_iff {a : α} {r : Except Ending α} :
    Runs kept (pure a) w faults r u ↔ faults = [] ∧ r = .ok a ∧ u = w := by
  constructor
  · intro h
    cases h with
    | done => exact ⟨rfl, rfl, rfl⟩
  · rintro ⟨rfl, rfl, rfl⟩
    exact .done _ _

theorem runs_throw_iff {e : Ending} {r : Except Ending α} :
    Runs kept (throw e) w faults r u ↔ faults = [] ∧ r = .error e ∧ u = w := by
  constructor
  · intro h
    cases h with
    | done => exact ⟨rfl, rfl, rfl⟩
  · rintro ⟨rfl, rfl, rfl⟩
    exact .done _ _

theorem runs_ask {c : SystemCall} {k : c.Answer → Job β} {r : Except Ending β}
    (h : Runs kept (ask c >>= k) w faults r u) :
    ∃ answer v late, Answers kept w c answer v ∧ Runs kept (k answer) v late r u ∧
      faults = c.met answer ++ late := by
  have hask {r' : Except Ending c.Answer} {v : World} {early : List Mishap}
      (hrun : Runs kept (ask c) w early r' v) :
      ∃ answer, r' = .ok answer ∧ Answers kept w c answer v ∧
        early = c.met answer := by
    obtain ⟨answer, _, _, _, hcall, hdone, rfl⟩ := Program.runs_bind_iff.mp hrun
    cases hdone with
    | done =>
      obtain ⟨hanswers, rfl⟩ := Program.runs_ask_iff.mp hcall
      exact ⟨answer, rfl, hanswers, List.append_nil _⟩
  rcases runs_bind_iff.mp h with ⟨e, _, hcall⟩ | ⟨answer, v, early, late, hcall, hrest, rfl⟩
  · obtain ⟨answer, heq, _⟩ := hask hcall
    exact absurd heq (by simp)
  · obtain ⟨answer', heq, hanswers, rfl⟩ := hask hcall
    exact ⟨answer, v, late, Except.ok.inj heq ▸ hanswers, hrest, Except.ok.inj heq ▸ rfl⟩

/-! ## Calls that may fail -/

/-- A job that has ended because a call failed. The file at the kept place is as it was. -/
structure Failed (kept : Location) (w u : World) (faults : List Mishap) (r : Except Ending α) :
    Prop where
  ended : ∃ why, r = .error (.failed why)
  met : faults ≠ []
  stored : u.tree.stored kept = w.tree.stored kept

theorem Failed.not_ok {a : α} : ¬ Failed kept w u faults (.ok a : Except Ending α) := by
  intro h
  obtain ⟨why, hwhy⟩ := h.ended
  exact absurd hwhy (by simp)

/-- What fails later has failed, if the file was as it was until then. -/
theorem Failed.after {v : World} {r : Except Ending α} (h : Failed kept v u faults r)
    (hstored : v.tree.stored kept = w.tree.stored kept) : Failed kept w u faults r where
  ended := h.ended
  met := h.met
  stored := h.stored.trans hstored

theorem Failed.bind {e : Ending} {r : Except Ending β}
    (h : Failed kept w u faults (.error e : Except Ending α)) (hr : r = .error e) :
    Failed kept w u faults r where
  ended := by
    obtain ⟨why, hwhy⟩ := h.ended
    exact ⟨why, hr.trans (congrArg Except.error (Except.error.inj hwhy))⟩
  met := h.met
  stored := h.stored

/-- What is known of a first part that fails only with a fault is known where the rest begins. -/
theorem runs_bind_of (done : α → World → Prop) {job : Job α} {k : α → Job β}
    {r : Except Ending β} (h : Runs kept (job >>= k) w faults r u)
    (hjob : ∀ early r v, Runs kept job w early r v →
      Failed kept w v early r ∨ ∃ a, early = [] ∧ r = .ok a ∧ done a v) :
    Failed kept w u faults r ∨ ∃ a v, done a v ∧ Runs kept (k a) v faults r u := by
  rcases runs_bind_iff.mp h with ⟨e, hr, hfirst⟩ | ⟨a, v, early, late, hfirst, hrest, rfl⟩
  · rcases hjob _ _ _ hfirst with hfailed | ⟨a, _, hok, _⟩
    · exact .inl (hfailed.bind hr)
    · exact absurd hok (by simp)
  · rcases hjob _ _ _ hfirst with hfailed | ⟨b, rfl, hok, hdone⟩
    · exact absurd hfailed Failed.not_ok
    · obtain rfl := Except.ok.inj hok
      exact .inr ⟨a, v, hdone, hrest⟩

/-- **A call that may fail** ends the job, or it has succeeded and the job goes on in the world it
left. A view of the answer as one that may be a fault is given, as only a call that is known has
such an answer. -/
theorem runs_tried {c : SystemCall} {view : c.Answer → Except FileFault β}
    {failure : FileFault → Failure} {k : β → Job γ} {r : Except Ending γ}
    (h : Runs kept (ask c >>= fun answer => orFail (view answer) failure >>= k) w faults r u)
    (hview : ∀ answer, c.fault? answer = faultIn? (view answer)) :
    Failed kept w u faults r ∨
      ∃ b, view (w.answer c).1 = .ok b ∧ Runs kept (k b) (w.answer c).2 faults r u := by
  obtain ⟨answer, v, late, hanswers, hrest, rfl⟩ := runs_ask h
  have hfault := hview answer
  cases hanswer : view answer with
  | error why =>
    rw [hanswer] at hrest hfault
    rw [SystemCall.met_of_some hfault]
    obtain ⟨rfl, hr, rfl⟩ := runs_throw_iff.mp hrest
    refine .inl ⟨⟨_, hr⟩, by simp, hanswers.stored_eq (.inr ?_)⟩
    rw [hfault]
    rfl
  | ok b =>
    rw [hanswer] at hrest hfault
    -- Only a mishap could have changed the answer, and a mishap has a fault to show for it.
    obtain ⟨rfl, rfl⟩ := hanswers.eq_of_fault?_none hfault
    rw [SystemCall.met_of_none hfault]
    exact .inr ⟨b, hanswer, hrest⟩

theorem runs_tried_last {c : SystemCall} {view : c.Answer → Except FileFault β}
    {failure : FileFault → Failure} {r : Except Ending β}
    (h : Runs kept (ask c >>= fun answer => orFail (view answer) failure) w faults r u)
    (hview : ∀ answer, c.fault? answer = faultIn? (view answer)) :
    Failed kept w u faults r ∨
      ∃ b, view (w.answer c).1 = .ok b ∧ faults = [] ∧ r = .ok b ∧ u = (w.answer c).2 := by
  have hpure : (fun answer => orFail (view answer) failure)
      = fun answer => orFail (view answer) failure >>= pure := by
    funext answer
    cases view answer <;> rfl
  rw [hpure] at h
  rcases runs_tried h hview with hfailed | ⟨b, hanswer, hrest⟩
  · exact .inl hfailed
  · exact .inr ⟨b, hanswer, runs_pure_iff.mp hrest⟩

/-- Reads a file with a reader that may turn the bytes down. -/
def readAs (p : Path) (read? : List UInt8 → Option α) (unread : FileFault → Failure)
    (unfit : Failure) : Job α := do
  let bytes ← orFail (← ask (.read p)) unread
  match read? bytes with
  | some a => return a
  | none => fail unfit

theorem runs_readAs {p : Path} {read? : List UInt8 → Option α} {unread : FileFault → Failure}
    {unfit : Failure} {k : α → Job β} {r : Except Ending β}
    (h : Runs kept (readAs p read? unread unfit >>= k) w faults r u) :
    Failed kept w u faults r ∨ ∃ bytes, w.tree.read p = .ok bytes ∧
      (r = .error (.failed unfit) ∧ u = w ∧ read? bytes = none ∨
        ∃ a, read? bytes = some a ∧ Runs kept (k a) w faults r u) := by
  rcases runs_bind_iff.mp h with ⟨e, hr, hfirst⟩ | ⟨a, v, early, late, hfirst, hrest, rfl⟩
  · rcases runs_tried hfirst fun _ => rfl with hfailed | ⟨bytes, hread, hparse⟩
    · exact .inl (hfailed.bind hr)
    · refine .inr ⟨bytes, hread, .inl ?_⟩
      cases hparsed : read? bytes with
      | none =>
        rw [hparsed] at hparse
        obtain ⟨_, hended, hsame⟩ := runs_throw_iff.mp hparse
        exact ⟨hr.trans (congrArg Except.error (Except.error.inj hended)), hsame, rfl⟩
      | some a =>
        rw [hparsed] at hparse
        exact absurd (runs_pure_iff.mp hparse).2.1 (by simp)
  · rcases runs_tried hfirst fun _ => rfl with hfailed | ⟨bytes, hread, hparse⟩
    · exact absurd hfailed Failed.not_ok
    · refine .inr ⟨bytes, hread, .inr ⟨a, ?_⟩⟩
      cases hparsed : read? bytes with
      | none =>
        rw [hparsed] at hparse
        exact absurd (runs_throw_iff.mp hparse).2.1 (by simp)
      | some b =>
        rw [hparsed] at hparse
        obtain ⟨rfl, hok, rfl⟩ := runs_pure_iff.mp hparse
        obtain rfl := Except.ok.inj hok
        exact ⟨rfl, hrest⟩

/-- Where it is asked whether something is there, the job goes on with the answer, or the question
has failed and the job goes on as if nothing were there. -/
theorem runs_isThere {p : Path} {k : Bool → Job β} {r : Except Ending β}
    (h : Runs kept (isThere p >>= k) w faults r u) :
    Runs kept (k (w.tree.isThere p)) w faults r u ∨
      ∃ why v late, faults = (.isThere p, why) :: late ∧
        v.tree.stored kept = w.tree.stored kept ∧ Runs kept (k false) v late r u := by
  obtain ⟨answer, v, late, hanswers, hrest, rfl⟩ := runs_ask (c := .isThere p) h
  cases answer with
  | error why =>
    exact .inr ⟨why, v, late, rfl, hanswers.stored_eq (.inr rfl), hrest⟩
  | ok there =>
    obtain ⟨hthere, rfl⟩ := hanswers.eq_of_fault?_none rfl
    obtain rfl := Except.ok.inj hthere
    exact .inl hrest

/-! ## Speaking -/

/-- How a job ends that only speaks: it has been heard, or it has ended where it was not. -/
inductive Spoken : List Mishap → Except Ending Unit → Prop
  | heard : Spoken [] (.ok ())
  | unheard (text : String) (why : FileFault) : Spoken [(.print text, why)] (.error (.unheard why))

theorem Spoken.isDone {r : Except Ending Unit} (h : Spoken faults r) : IsDone r := by
  cases h with
  | heard => trivial
  | unheard => exact id

theorem Spoken.of_unheard {why : FileFault} (h : Spoken faults (.error (.unheard why))) :
    ∃ text, (SystemCall.print text, why) ∈ faults := by
  cases h with
  | unheard text => exact ⟨text, List.mem_singleton_self _⟩

/-- A job that only speaks and leaves the file at the kept place alone. -/
def Speaks (job : Job Unit) : Prop :=
  ∀ ⦃kept : Location⦄ ⦃w u : World⦄ ⦃faults : List Mishap⦄ ⦃r : Except Ending Unit⦄,
    Runs kept job w faults r u → Spoken faults r ∧ u.tree.stored kept = w.tree.stored kept

theorem speaks_say (text : String) : Speaks (say text) := by
  intro kept w u faults r h
  obtain ⟨answer, v, late, hanswers, hrest, rfl⟩ := runs_ask (c := .print text) h
  have hstored := hanswers.stored_eq (.inl fun p hp => absurd hp List.not_mem_nil)
  cases answer with
  | error why =>
    obtain ⟨rfl, rfl, rfl⟩ := runs_throw_iff.mp hrest
    exact ⟨.unheard text why, hstored⟩
  | ok done =>
    obtain ⟨rfl, rfl, rfl⟩ := runs_pure_iff.mp hrest
    exact ⟨.heard, hstored⟩

theorem Speaks.bind {job more : Job Unit} (h : Speaks job) (h' : Speaks more) :
    Speaks (job >>= fun _ => more) := by
  intro kept w u faults r hrun
  rcases runs_bind_iff.mp hrun with ⟨e, rfl, hfirst⟩ | ⟨_, v, early, late, hfirst, hrest, rfl⟩
  · obtain ⟨hspoken, hstored⟩ := h hfirst
    cases hspoken with
    | unheard text why => exact ⟨.unheard text why, hstored⟩
  · obtain ⟨hspoken, hstored⟩ := h hfirst
    obtain ⟨hspoken', hstored'⟩ := h' hrest
    cases hspoken with
    | heard => exact ⟨hspoken', hstored'.trans hstored⟩

/-! ## Writing the state file -/

theorem runs_makeParent {p : Path} {k : Unit → Job α} {r : Except Ending α}
    (h : Runs kept (makeParent p >>= k) w faults r u) :
    Failed kept w u faults r ∨ ∃ v, v.tree.stored kept = w.tree.stored kept ∧ v.now = w.now ∧
      Runs kept (k ()) v faults r u := by
  unfold makeParent at h
  split at h
  · exact .inr ⟨w, rfl, rfl, h⟩
  · next directory _ =>
    have hmade := runs_bind_of (fun _ v => v = (w.answer (.makeDirs directory)).2) h ?_
    · rcases hmade with hfailed | ⟨_, v, rfl, hrest⟩
      · exact .inl hfailed
      · exact .inr ⟨(w.answer (.makeDirs directory)).2, Tree.stored_makeDirs _ _ _, rfl, hrest⟩
    · intro early r v hcall
      rcases runs_tried_last hcall fun _ => rfl with hfailed | ⟨b, _, hfaults, hr, hv⟩
      · exact .inl hfailed
      · exact .inr ⟨b, hfaults, hr, hv⟩

theorem ending_tmp : Path.Ending ".tmp" := ⟨by decide, by decide⟩

theorem ending_lock : Path.Ending ".lock" := ⟨by decide, by decide⟩

/-- **Writing a file puts the bytes there or leaves the file as it was.** -/
theorem runs_writeFile {p : Path} {bytes : List UInt8} {r : Except Ending Unit}
    (h : Runs p.place (writeFile p bytes) w faults r u) :
    Failed p.place w u faults r ∨
      (faults = [] ∧ r = .ok () ∧ u.tree.stored p.place = some bytes) := by
  have hbeside : p.place ≠ (p.sibling ".tmp").place := (p.place_sibling_ne ending_tmp).symm
  rcases runs_makeParent h with hfailed | ⟨v, hstored, _, h⟩
  · exact .inl hfailed
  rcases runs_tried h fun _ => rfl with hfailed | ⟨_, hcreate, h⟩
  · exact .inl (hfailed.after hstored)
  have hcreated := (Tree.stored_writeWith_of_ne (fun _ => []) hbeside).trans hstored
  rcases runs_tried h fun _ => rfl with hfailed | ⟨_, happend, h⟩
  · exact .inl (hfailed.after hcreated)
  have happended := (Tree.stored_writeWith_of_ne (· ++ bytes) hbeside).trans hcreated
  rcases runs_tried h fun _ => rfl with hfailed | ⟨_, _, h⟩
  · exact .inl (hfailed.after happended)
  rcases runs_tried_last h fun _ => rfl with hfailed | ⟨_, hrename, hfaults, hr, rfl⟩
  · exact .inl (hfailed.after happended)
  -- The file beside was made empty, so what has been added is all there is in it.
  have hempty : (v.answer (.create (p.sibling ".tmp"))).2.tree.stored (p.sibling ".tmp").place
      = some [] := Tree.stored_writeWith hcreate
  have hwritten := Tree.stored_writeWith happend
  rw [hempty] at hwritten
  exact .inr ⟨hfaults, hr, (Tree.stored_rename hrename).trans hwritten⟩

/-- **What is done under the lock** is done with the file as it was, at a path that can be followed,
and nothing is done to the file after it. -/
theorem runs_withLock {p : Path} {job : Job α} {r : Except Ending α}
    (h : Runs p.place (withLock p job) w faults r u) :
    Failed p.place w u faults r ∨
      ∃ v, v.tree.stored p.place = w.tree.stored p.place ∧ v.now = w.now ∧ v.tree.Leads p ∧
        Runs p.place job v faults r u := by
  have hbeside : p.place ≠ (p.sibling ".lock").place := (p.place_sibling_ne ending_lock).symm
  rcases runs_makeParent h with hfailed | ⟨v, hstored, hnow, h⟩
  · exact .inl hfailed
  rcases runs_tried h fun _ => rfl with hfailed | ⟨_, hopen, h⟩
  · exact .inl (hfailed.after hstored)
  have hopened := (Tree.stored_writeWith_of_ne id hbeside).trans hstored
  have hleads := Tree.leads_of_sibling ending_lock (Tree.leads_writeWith hopen)
  rcases runs_tried h fun _ => rfl with hfailed | ⟨_, _, h⟩
  · exact .inl (hfailed.after hopened)
  obtain ⟨result, v', early, late, hjob, hunlock, rfl⟩ := Program.runs_bind_iff.mp h
  obtain ⟨_, v'', _, _, hasked, hdone, rfl⟩ := Program.runs_bind_iff.mp hunlock
  obtain ⟨hanswers, rfl⟩ := Program.runs_ask_iff.mp hasked
  obtain ⟨_, rfl⟩ := hanswers.eq_of_fault?_none rfl
  cases hdone with
  | done =>
    have hfaults : early ++ (SystemCall.met (.unlock (p.sibling ".lock")) () ++ []) = early :=
      List.append_nil early
    exact .inr ⟨(v.answer (.openKept (p.sibling ".lock"))).2, hopened, hnow, hleads,
      hfaults.symm ▸ hjob⟩

/-! ## Reading the state file -/

/-- The ledger that is kept at a place. -/
def keptLedger? (t : Tree) (place : Location) : Option Ledger :=
  (t.stored place).bind Ledger.ofBytes?

theorem keptLedger?_of_read {t : Tree} {p : Path} {bytes : List UInt8} (h : t.read p = .ok bytes) :
    keptLedger? t p.place = Ledger.ofBytes? bytes := by
  rw [keptLedger?, (Tree.read_eq_ok_iff.mp h).2, Option.bind_some]

theorem loadState_eq (state : Path) :
    loadState state = readAs state Ledger.ofBytes? (.noState state) (.badState state) := by
  unfold loadState readAs
  congr 1
  funext answer
  congr 1
  funext bytes
  cases Ledger.ofBytes? bytes <;> rfl

/-- **Reading the state file** gives the ledger that is kept there, or ends the job. -/
theorem runs_loadState {state : Path} {k : Ledger → Job α} {r : Except Ending α}
    (h : Runs kept (loadState state >>= k) w faults r u) :
    Failed kept w u faults r ∨
      (r = .error (.failed (.badState state)) ∧ u = w ∧ keptLedger? w.tree state.place = none) ∨
      ∃ l, keptLedger? w.tree state.place = some l ∧ Runs kept (k l) w faults r u := by
  rw [loadState_eq] at h
  rcases runs_readAs h with hfailed | ⟨bytes, hread, hparsed⟩
  · exact .inl hfailed
  · rw [keptLedger?_of_read hread]
    exact .inr hparsed

end Job
end RetirementVault.Command
