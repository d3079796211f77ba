import RetirementVault.Proofs.Command.Job
import RetirementVault.Proofs.Ledger.Record

/-!
# What a command does to the state file

A command works on a file and has a meaning in memory: `inMemory?` is the ledger it leaves if it
goes through, given the ledger it found. The two agree (`Lands`): a command that succeeds has put
the text of that ledger into the file, and one that ends early has not touched the file and has had
a reason to end, a call that failed or a ledger that refused. A command that goes unheard has done
its work before: it has only the saying left to do.

A run under the lock sees the file as it was before the command, because nothing before the lock
writes there. That is all `lands_withLock` has to add to what is done inside.
-/

set_option autoImplicit false

namespace RetirementVault.Command

open Store Job

/-- The settings a vault is opened with when they are kept in a file. -/
def settingsIn? (t : Tree) : Option Path → Option Settings
  | none => some {}
  | some p => (t.read p).toOption.bind Settings.ofBytes?

def answered? {α : Type} : Except Stop α × Ledger → Option Ledger
  | (.ok _, after) => some after
  | (.error _, _) => none

theorem answered?_eq_some {α : Type} {called : Except Stop α × Ledger} {after : Ledger} :
    answered? called = some after ↔ ∃ a, called = (.ok a, after) := by
  rcases called with ⟨_ | a, l⟩
  · simp [answered?]
  · simp [answered?]

theorem answered?_eq_none {α : Type} {called : Except Stop α × Ledger} {why : Stop}
    (h : called.1 = .error why) : answered? called = none := by
  rcases called with ⟨_ | a, l⟩
  · rfl
  · exact nomatch h

/-- What a command makes of a ledger in memory at a time, if it goes through. A new vault is opened
with settings instead. -/
def inMemory? (now : Nat) (settings : Option Settings) (ledger : Option Ledger) :
    Command → Option Ledger
  | .init label balance _ => settings.map fun s => (overridden s label balance).openLedger
  | .initiate amount destination signature verify =>
    (parseAmount amount).toOption.bind fun amount =>
      ledger.bind fun l =>
        answered? (l.initiateVerified (verifier verify) now { amount, destination, signature })
  | .execute => ledger.bind fun l => answered? l.settle
  | .report | .keygen _ | .sign _ _ _ | .format _ | .project _ _ => ledger

section

variable {kept : Location} {α β : Type} {w u : World} {faults : List Mishap}

/-- How a job ends that is to put a ledger into the file: it has, though it may not have been heard
afterwards, or it has left the file alone and there was a fault or no ledger to put there. -/
inductive Lands (kept : Location) (outcome : Option Ledger) (w u : World) {α : Type} :
    List Mishap → Except Ending α → Prop
  | written {l : Ledger} {a : α} (goes : outcome = some l)
    (stored : u.tree.stored kept = some (stateBytes l)) : Lands kept outcome w u [] (.ok a)
  | unheard {l : Ledger} {text : String} {why : FileFault} (goes : outcome = some l)
    (stored : u.tree.stored kept = some (stateBytes l)) :
    Lands kept outcome w u [(.print text, why)] (.error (.unheard why))
  | left {faults : List Mishap} {e : Ending} (early : e.IsEarly)
    (why : faults ≠ [] ∨ outcome = none) (stored : u.tree.stored kept = w.tree.stored kept) :
    Lands kept outcome w u faults (.error e)

namespace Lands

variable {outcome : Option Ledger}

theorem of_failed {r : Except Ending α} (h : Failed kept w u faults r) :
    Lands kept outcome w u faults r := by
  obtain ⟨why, rfl⟩ := h.ended
  exact .left trivial (.inl h.met) h.stored

theorem after {v : World} {r : Except Ending α} (h : Lands kept outcome v u faults r)
    (hstored : v.tree.stored kept = w.tree.stored kept) : Lands kept outcome w u faults r := by
  cases h with
  | written goes stored => exact .written goes stored
  | unheard goes stored => exact .unheard goes stored
  | left early why stored => exact .left early why (stored.trans hstored)

theorem stored_of_early {e : Ending}
    (h : Lands kept outcome w u faults (.error e : Except Ending α))
    (hearly : e.IsEarly) : u.tree.stored kept = w.tree.stored kept := by
  cases h with
  | unheard => exact hearly.elim
  | left _ _ stored => exact stored

/-- A job that is done has put the ledger into the file. -/
theorem stored_of_done {r : Except Ending Unit} (h : Lands kept outcome w u faults r)
    (hdone : IsDone r) : ∃ l, outcome = some l ∧ u.tree.stored kept = some (stateBytes l) := by
  cases h with
  | written goes stored => exact ⟨_, goes, stored⟩
  | unheard goes stored => exact ⟨_, goes, stored⟩
  | left early => exact absurd hdone early.not_isDone

/-- A job goes through exactly when nothing failed and there was a ledger to put into the file. -/
theorem ok_iff {r : Except Ending Unit} (h : Lands kept outcome w u faults r) :
    r = .ok () ↔ faults = [] ∧ ∃ l, outcome = some l := by
  cases h with
  | written goes => exact ⟨fun _ => ⟨rfl, _, goes⟩, fun _ => rfl⟩
  | unheard => simp
  | left _ why =>
    constructor
    · intro hok
      exact absurd hok (by simp)
    · rintro ⟨hfaults, l, hl⟩
      rcases why with hmet | hnone
      · exact absurd hfaults hmet
      · exact absurd (hl.symm.trans hnone) (by simp)

/-- A job that goes unheard has been let down by speaking alone. -/
theorem spoken_of_unheard {why : FileFault} {r : Except Ending Unit}
    (h : Lands kept outcome w u faults r) (hr : r = .error (.unheard why)) : Spoken faults r := by
  cases h with
  | written => exact absurd hr (by simp)
  | unheard => exact .unheard _ _
  | left early =>
    obtain rfl := Except.error.inj hr
    exact early.elim

end Lands

theorem lands_saveState {state : Path} {l : Ledger} {a : α} {r : Except Ending α}
    (h : Runs state.place (saveState state l >>= fun _ => pure a) w faults r u) :
    Lands state.place (some l) w u faults r := by
  have hsaved := runs_bind_of (fun _ v => v.tree.stored state.place = some (stateBytes l)) h
    fun early r v hsave => ?_
  · rcases hsaved with hfailed | ⟨_, v, hstored, hdone⟩
    · exact .of_failed hfailed
    · obtain ⟨rfl, rfl, rfl⟩ := runs_pure_iff.mp hdone
      exact .written rfl hstored
  · rcases runs_writeFile hsave with hfailed | ⟨hfaults, hr, hstored⟩
    · exact .inl hfailed
    · exact .inr ⟨(), hfaults, hr, hstored⟩

theorem runs_orStop {answer : Except Stop α} {k : α → Job β} {r : Except Ending β}
    (h : Runs kept (orStop answer >>= k) w faults r u) :
    (∃ why, answer = .error why ∧ faults = [] ∧ r = .error (.ofStop why) ∧ u = w) ∨
      ∃ a, answer = .ok a ∧ Runs kept (k a) w faults r u := by
  cases answer with
  | error why =>
    obtain ⟨hfaults, hr, hu⟩ := runs_throw_iff.mp h
    exact .inl ⟨why, rfl, hfaults, hr, hu⟩
  | ok a => exact .inr ⟨a, rfl, h⟩

theorem lands_answered {state : Path} {answer : Except Stop α} {after : Ledger} {told : α → β}
    {r : Except Ending β}
    (h : Runs state.place
      (orStop answer >>= fun a => saveState state after >>= fun _ => pure (told a)) w faults r u) :
    Lands state.place (answered? (answer, after)) w u faults r := by
  rcases runs_orStop h with ⟨why, rfl, rfl, rfl, rfl⟩ | ⟨a, rfl, hsave⟩
  · exact .left (Ending.isEarly_ofStop why) (.inr rfl) rfl
  · exact lands_saveState hsave

/-- What is done under the lock to the ledger that is kept is done to the one the command has
found. -/
theorem lands_withLock {state : Path} {job : Ledger → Job α} {meaning : Ledger → Option Ledger}
    {r : Except Ending α}
    (h : Runs state.place (withLock state (loadState state >>= job)) w faults r u)
    (hjob : ∀ v l, v.now = w.now → Runs state.place (job l) v faults r u →
      Lands state.place (meaning l) v u faults r) :
    Lands state.place ((keptLedger? w.tree state.place).bind meaning) w u faults r := by
  rcases runs_withLock h with hfailed | ⟨v, hstored, hnow, _, hrun⟩
  · exact .of_failed hfailed
  have hfound : keptLedger? v.tree state.place = keptLedger? w.tree state.place := by
    rw [keptLedger?, keptLedger?, hstored]
  rw [← hfound]
  rcases runs_loadState hrun with hfailed | ⟨rfl, rfl, hnone⟩ | ⟨l, hl, hrest⟩
  · exact .of_failed (hfailed.after hstored)
  · rw [hnone]
    exact .left trivial (.inr rfl) hstored
  · rw [hl]
    exact (hjob v l hnow hrest).after hstored

/-- Speaking afterwards changes nothing about what a job has done. -/
theorem lands_speaking {job : Job α} {k : α → Job Unit} {outcome : Option Ledger}
    {r : Except Ending Unit} (h : Runs kept (job >>= k) w faults r u) (hk : ∀ a, Speaks (k a))
    (hjob : ∀ early r v, Runs kept job w early r v → Lands kept outcome w v early r) :
    Lands kept outcome w u faults r := by
  rcases runs_bind_iff.mp h with ⟨e, rfl, hrun⟩ | ⟨a, v, early, late, hrun, hrest, rfl⟩
  · cases hjob _ _ _ hrun with
    | unheard goes stored => exact .unheard goes stored
    | left early why stored => exact .left early why stored
  · obtain ⟨hspoken, hstored⟩ := hk a hrest
    cases hjob _ _ _ hrun with
    | written goes stored =>
      cases hspoken with
      | heard => exact .written goes (hstored.trans stored)
      | unheard text why => exact .unheard goes (hstored.trans stored)

/-! ## The commands -/

/-- **Settling** puts the settled ledger into the file. -/
theorem lands_executeJob {state : Path} {r : Except Ending Unit}
    (h : Runs state.place (executeJob state) w faults r u) :
    Lands state.place ((keptLedger? w.tree state.place).bind fun l => answered? l.settle)
      w u faults r := by
  refine lands_speaking h (fun _ => (speaks_say _).bind (speaks_say _)) ?_
  intro early r v hrun
  refine lands_withLock hrun ?_
  intro v' l _ hjob
  exact lands_answered hjob

/-- **Reserving** puts the ledger with the reservation into the file. -/
theorem lands_initiateJob {state : Path} {amount destination signature : String} {verify : Bool}
    {r : Except Ending Unit}
    (h : Runs state.place (initiateJob state amount destination signature verify) w faults r u) :
    Lands state.place (inMemory? w.now none (keptLedger? w.tree state.place)
      (.initiate amount destination signature verify)) w u faults r := by
  rcases runs_orStop h with ⟨why, hrefused, rfl, rfl, rfl⟩ | ⟨sats, hsats, h⟩
  · have hnone : (parseAmount amount).toOption = none := by
      cases hamount : parseAmount amount with
      | error _ => rfl
      | ok _ =>
        rw [hamount] at hrefused
        exact nomatch hrefused
    rw [inMemory?, hnone]
    exact .left (Ending.isEarly_ofStop why) (.inr rfl) rfl
  · have hsome : (parseAmount amount).toOption = some sats := by
      cases hamount : parseAmount amount with
      | error _ =>
        rw [hamount] at hsats
        exact nomatch hsats
      | ok _ =>
        rw [hamount] at hsats
        exact congrArg some (Except.ok.inj hsats)
    rw [inMemory?, hsome, Option.bind_some]
    refine lands_speaking h (fun _ => (speaks_say _).bind (speaks_say _)) ?_
    intro early r v hrun
    refine lands_withLock hrun ?_
    intro v' l hnow hjob
    obtain ⟨now, v'', late, hanswers, hrest, rfl⟩ := runs_ask hjob
    -- The time is asked for under the lock, and it is still the time of the command.
    obtain ⟨rfl, hv⟩ := hanswers.eq_of_fault?_none rfl
    rw [show v'' = v' from hv] at hrest
    rw [← hnow]
    exact lands_answered hrest

theorem loadSettings_eq (p : Path) :
    loadSettings (some p) = readAs p Settings.ofBytes? (.noSettings p) (.badSettings p) := by
  show (ask (.read p) >>= fun _ => _) = readAs _ _ _ _
  unfold readAs
  congr 1
  funext answer
  congr 1
  funext bytes
  cases Settings.ofBytes? bytes <;> rfl

theorem runs_loadSettings {settings : Option Path} {k : Settings → Job α} {r : Except Ending α}
    (h : Runs kept (loadSettings settings >>= k) w faults r u) :
    (∃ why, r = .error (.failed why) ∧ u.tree.stored kept = w.tree.stored kept) ∨
      ∃ s, settingsIn? w.tree settings = some s ∧ Runs kept (k s) w faults r u := by
  cases settings with
  | none => exact .inr ⟨{}, rfl, h⟩
  | some p =>
    rw [loadSettings_eq] at h
    rcases runs_readAs h with hfailed | ⟨bytes, hread, hparsed⟩
    · obtain ⟨why, he⟩ := hfailed.ended
      exact .inl ⟨why, he, hfailed.stored⟩
    · rw [settingsIn?, hread]
      rcases hparsed with ⟨he, rfl, _⟩ | hsettings
      · exact .inl ⟨_, he, rfl⟩
      · exact .inr hsettings

/-- The question whether the state file is there has failed. -/
def Blind (state : Path) (faults : List Mishap) : Prop :=
  ∃ why, (SystemCall.isThere state, why) ∈ faults

/-- A new ledger is kept in a file that was not there, or over another one when that is forced or
when it could not be seen. -/
theorem runs_keepNew {state : Path} {force : Bool} {l : Ledger} {r : Except Ending Unit}
    (hleads : w.tree.Leads state)
    (h : Runs state.place (do
      if (← isThere state) && !force then fail (.stateExists state)
      saveState state l) w faults r u) :
    (∃ why, r = .error (.failed why) ∧ u.tree.stored state.place = w.tree.stored state.place) ∨
      r = .ok () ∧ (force = false → w.tree.stored state.place = none ∨ Blind state faults) ∧
        u.tree.stored state.place = some (stateBytes l) := by
  -- Nothing was seen to be there, or it was not asked about, so the ledger is kept.
  have hkeeps {v : World} {late : List Mishap}
      (hrun : Runs state.place (saveState state l) v late r u)
      (hstored : v.tree.stored state.place = w.tree.stored state.place) :
      (∃ why, r = .error (.failed why) ∧
        u.tree.stored state.place = w.tree.stored state.place) ∨
        r = .ok () ∧ u.tree.stored state.place = some (stateBytes l) := by
    rcases runs_writeFile hrun with hfailed | ⟨_, hr, hwritten⟩
    · obtain ⟨why, he⟩ := hfailed.ended
      exact .inl ⟨why, he, hfailed.stored.trans hstored⟩
    · exact .inr ⟨hr, hwritten⟩
  rcases runs_isThere h with hrest | ⟨why, v, late, rfl, hstored, hrest⟩
  · dsimp only at hrest
    split at hrest
    · obtain ⟨_, hr, rfl⟩ := runs_throw_iff.mp hrest
      exact .inl ⟨_, hr, rfl⟩
    · next hfree =>
      rcases hkeeps hrest rfl with hended | ⟨hr, hwritten⟩
      · exact .inl hended
      · refine .inr ⟨hr, ?_, hwritten⟩
        intro hforce
        have hthere : ¬ (w.tree.isThere state && !force) = true := hfree
        exact .inl (Tree.stored_of_not_isThere hleads (by simpa [hforce] using hthere))
  · rcases hkeeps hrest hstored with hended | ⟨hr, hwritten⟩
    · exact .inl hended
    · exact .inr ⟨hr, fun _ => .inr ⟨why, List.mem_cons_self ..⟩, hwritten⟩

/-- **Opening a vault** puts the fresh ledger into the file, over another one only when forced or
blind, and then has only speaking left. -/
theorem runs_initJob {state : Path} {settings : Option Path} {label : Option String}
    {balance : Option Sats} {force : Bool} {r : Except Ending Unit}
    (h : Runs state.place (initJob state settings label balance force) w faults r u) :
    (∃ why, r = .error (.failed why) ∧ u.tree.stored state.place = w.tree.stored state.place) ∨
      (∃ early late, faults = early ++ late ∧ Spoken late r) ∧
        (force = false → w.tree.stored state.place = none ∨ Blind state faults) ∧
        ∃ l, inMemory? w.now (settingsIn? w.tree settings) none (.init label balance force)
            = some l ∧
          u.tree.stored state.place = some (stateBytes l) := by
  rcases runs_loadSettings h with hended | ⟨s, hsettings, h⟩
  · exact .inl hended
  simp only [inMemory?, hsettings, Option.map_some]
  generalize (overridden s label balance).openLedger = ledger at h ⊢
  rcases runs_bind_iff.mp h with ⟨e, hr, hlocked⟩ | ⟨_, v, early, late, hlocked, hsays, rfl⟩
  · rcases runs_withLock hlocked with hfailed | ⟨v, hstored, _, hleads, hrun⟩
    · obtain ⟨why, hwhy⟩ := hfailed.ended
      exact .inl ⟨why, hr.trans (congrArg Except.error (Except.error.inj hwhy)), hfailed.stored⟩
    · rcases runs_keepNew hleads hrun with ⟨why, hwhy, hkept⟩ | ⟨hok, _⟩
      · exact .inl ⟨why, hr.trans (congrArg Except.error (Except.error.inj hwhy)),
          hkept.trans hstored⟩
      · exact absurd hok (by simp)
  · obtain ⟨hspoken, hsaid⟩ := speaks_say _ hsays
    rcases runs_withLock hlocked with hfailed | ⟨v', hstored, _, hleads, hrun⟩
    · exact absurd hfailed Failed.not_ok
    · rcases runs_keepNew hleads hrun with ⟨_, he, _⟩ | ⟨_, hfree, hkept⟩
      · exact absurd he (by simp)
      · refine .inr ⟨⟨early, late, rfl, hspoken⟩, ?_, ledger, rfl, hsaid.trans hkept⟩
        intro hforce
        rw [← hstored]
        exact (hfree hforce).imp_right fun ⟨why, hwhy⟩ => ⟨why, List.mem_append_left _ hwhy⟩

end

end RetirementVault.Command
