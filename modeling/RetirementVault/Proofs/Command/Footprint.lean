import RetirementVault.Proofs.Command.Conduct
import RetirementVault.Proofs.Program.Footprint

/-!
# The files a command may touch

A command about a state file goes through four phases. It reads what it was given besides the state
file, and has changed nothing. It opens the lock and works on the ledger in memory; directories
around the state file and an empty file for the lock may have been made (`Opened`). It saves; the
file beside may have been written (`Disk.Written`). It has saved, and speaks: the name of the file
beside has been moved over that of the state file (`Saved`). How a command ends tells the phase it
was in (`phaseOf`), also where it is cut short, and so what may have changed (`Phase.Left`).

All this is about a disk with links, and a path says less there than it seems to. The lock and the
file beside are where their paths lead, which may be elsewhere, or the same file twice. What never
coincides are the names: the file beside, the state file and the lock have three names in one
directory, so a move leaves the name of the lock alone.
-/

set_option autoImplicit false

namespace RetirementVault.Command

open Store Job

/-! ## Changes of a disk -/

/-- One of the directories around a path lies at a location, or is passed on the way to it. -/
def Around (p : Path) (d : Disk) (q : Location) : Prop :=
  ∃ directory, p.parent? = some directory ∧ d.Passes directory q

/-- What may have become of a disk before a command saves. Directories around the state file are
new, and an empty file where the path of the lock leads; all files hold what they held. -/
abbrev Opened (state : Path) : Disk → Disk → Prop :=
  Disk.Gains (Around state) fun d q => d.Leads (lockOf state) q

/-- There is a name for the lock, a file's or a link's. -/
def HasLock (state : Path) (d : Disk) : Prop :=
  ∃ l node, d.Names (lockOf state) l ∧ d.node? l = some node ∧ node ≠ .directory

/-- What has become of a disk when a command has saved. After directories and the lock, the file
that the path of the file beside leads to has been written, its name has been moved over that of the
state file, and that of the lock is there. -/
inductive Saved (state : Path) (t u : Disk) : Prop
  | replaced {v w : Disk} {beside place lock : Location} {node : Node} (opened : Opened state t v)
    (written : v.Written (besideOf state) w) (hbeside : w.Names (besideOf state) beside)
    (hplace : w.Names state place) (hlock : w.Names (lockOf state) lock)
    (moved : w.MovedBetween beside place u) (there : u.node? lock = some node)
    (name : node ≠ .directory) : Saved state t u

section

variable {state : Path} {t u v w : Disk}

theorem lasts_around (p : Path) : Disk.Lasts (Around p) := by
  rintro d e q hgrows ⟨directory, hparent, hpasses⟩
  exact ⟨directory, hparent, hpasses.mono hgrows⟩

theorem Opened.trans (h : Opened state t u) (h' : Opened state u v) : Opened state t v :=
  Disk.Gains.trans (lasts_around state) (Disk.lasts_leads _) h h'

theorem opened_refl (state : Path) (t : Disk) : Opened state t t :=
  Disk.gains_refl t

theorem HasLock.mono (h : HasLock state t) (hgrows : t.Grows u) : HasLock state u := by
  obtain ⟨l, node, hnames, hthere, hname⟩ := h
  exact ⟨l, node, hnames.mono hgrows, hgrows.keeps l node hthere, hname⟩

/-- The three names are different, so the move leaves the name of the lock alone. -/
theorem saved_of_moves {r : Location} (hopened : Opened state t v) (hlock : HasLock state v)
    (hleads : v.Leads (besideOf state) r) (hwritten : v.WrittenAt r w)
    (hmoves : w.Moves (besideOf state) state u) : Saved state t u := by
  obtain ⟨beside, place, hbeside, hplace, hmoved⟩ := hmoves.between fun old new hold hnew =>
    Disk.names_sibling_ne ending_tmp hnew hold
  obtain ⟨l, node, hnames, hthere, hname⟩ := hlock.mono hwritten.grows
  refine .replaced hopened (.inr ⟨r, hleads, hwritten⟩) hbeside hplace hnames hmoved ?_ hname
  rw [hmoved.elsewhere l, hthere]
  · rintro rfl
    exact absurd (Disk.names_sibling_inj ending_lock ending_tmp hplace hnames hbeside) (by decide)
  · exact Disk.names_sibling_ne ending_lock hplace hnames

end

/-! ## Phases -/

inductive Phase where
  | reading
  | opening
  | saving
  | speaking
  deriving DecidableEq

def Ending.phase : Ending → Phase
  | .failed (.noSettings ..) | .failed (.badSettings _) => .reading
  | .failed (.file .create ..) | .failed (.file .write ..) | .failed (.file .sync ..) => .saving
  | .failed (.rename ..) => .saving
  | .unheard _ => .speaking
  | _ => .opening

/-- The phase a command was in when it ended. -/
def phaseOf : Except Ending Unit → Phase
  | .ok () => .speaking
  | .error e => e.phase

/-- The files are as they may be when a command has ended in a phase. -/
def Phase.Left (state : Path) (t u : Disk) : Phase → Prop
  | .reading => u = t
  | .opening => Opened state t u
  | .saving => ∃ v, Opened state t v ∧ v.Written (besideOf state) u
  | .speaking => Saved state t u

theorem left_of_opened {state : Path} {t u : Disk} {e : Ending} (hopened : Opened state t u)
    (he : e.phase = .opening) : e.phase.Left state t u := by
  rw [he]
  exact hopened

theorem phase_ofStop (why : Stop) : (Ending.ofStop why).phase = .opening := by
  cases why <;> rfl

/-! ## Jobs -/

/-- The settings a vault is opened with when they are kept in a file on a disk. -/
def settingsOn? (d : Disk) : Option Path → Option Settings
  | none => some {}
  | some p => (d.read p).toOption.bind Settings.ofBytes?

section

variable {α β : Type} {t u v : Disk} {job : Job α} {good good' : α → Disk → Prop}
  {bad bad' : Ending → Disk → Prop} {state : Path}

/-- However the calls of a job turn out, something holds where it ends well and something where it
ends early. -/
structure Ensures (good : α → Disk → Prop) (bad : Ending → Disk → Prop) (job : Job α) (t : Disk) :
    Prop where
  follows : job.run.Follows Program.alone
    (fun r u =>
      match r with
      | .ok a => good a u
      | .error e => bad e u) t

theorem Ensures.mono (h : Ensures good bad job t) (hgood : ∀ a u, good a u → good' a u)
    (hbad : ∀ e u, bad e u → bad' e u) : Ensures good' bad' job t := by
  refine ⟨h.follows.mono ?_⟩
  rintro (e | a) u
  · exact hbad e u
  · exact hgood a u

theorem Ensures.bind {then' : β → Disk → Prop} {next : α → Job β}
    (h : Ensures (fun a u => Ensures then' bad (next a) u) bad job t) :
    Ensures then' bad (job >>= next) t := by
  refine ⟨Program.Follows.bind (h.follows.mono ?_)⟩
  rintro (e | a) u
  · exact id
  · exact Ensures.follows

theorem ensures_pure {a : α} (h : good a t) : Ensures good bad (pure a) t :=
  ⟨h⟩

theorem ensures_throw {e : Ending} (h : bad e t) : Ensures good bad (throw e : Job α) t :=
  ⟨h⟩

theorem ensures_ask {c : SystemCall} {next : c.Answer → Job α}
    (hnext : ∀ answer u, Turnout t c answer u → Ensures good bad (next answer) u) :
    Ensures good bad (ask c >>= next) t :=
  ⟨trivial, fun answer u hturnout => (hnext answer u hturnout).follows⟩

theorem ensures_orFail {answer : Except FileFault β} {failure : FileFault → Failure}
    {next : β → Job α} (hok : ∀ b, answer = .ok b → Ensures good bad (next b) t)
    (hbad : ∀ why, bad (.failed (failure why)) t) :
    Ensures good bad (orFail answer failure >>= next) t := by
  cases answer with
  | error why => exact ensures_throw (hbad why)
  | ok b => exact Ensures.bind (ensures_pure (hok b rfl))

theorem ensures_orStop {answer : Except Stop β} {next : β → Job α}
    (hok : ∀ b, Ensures good bad (next b) t) (hbad : ∀ e, e.phase = .opening → bad e t) :
    Ensures good bad (orStop answer >>= next) t := by
  cases answer with
  | error why => exact ensures_throw (hbad _ (phase_ofStop why))
  | ok b => exact Ensures.bind (ensures_pure (hok b))

/-- Speaking changes nothing, whether it is heard or not. -/
theorem ensures_say {good : Unit → Disk → Prop} (text : String) (hgood : good () t)
    (hbad : ∀ why, bad (.unheard why) t) : Ensures good bad (say text) t := by
  refine ensures_ask fun answer u hturnout => ?_
  obtain rfl : u = t := Turnout.turns hturnout
  cases answer with
  | error why => exact ensures_throw (hbad why)
  | ok said => exact ensures_pure hgood

theorem ensures_isThere {p : Path} {next : Bool → Job α}
    (hnext : ∀ there, Ensures good bad (next there) t) :
    Ensures good bad (Job.isThere p >>= next) t := by
  refine Ensures.bind (ensures_ask fun answer u hturnout => ?_)
  obtain rfl : u = t := hturnout.turns
  cases answer with
  | error why => exact ensures_pure (hnext false)
  | ok there => exact ensures_pure (hnext there)

theorem ensures_makeParent {p : Path} {next : Unit → Job α}
    (hnext : ∀ u, Opened p t u → Ensures good bad (next ()) u)
    (hbad : ∀ u directory why, Opened p t u → bad (.failed (.file .makeDirs directory why)) u) :
    Ensures good bad (makeParent p >>= next) t := by
  unfold makeParent
  split
  · exact Ensures.bind (ensures_pure (hnext t (opened_refl p t)))
  · next directory hparent =>
    refine Ensures.bind (ensures_ask fun answer u hturnout => ?_)
    have hgains : t.GainsOnWay directory u := hturnout.turns
    have hopened : Opened p t u :=
      hgains.mono (fun q hpasses => ⟨directory, hparent, hpasses⟩) fun q hfalse => hfalse.elim
    cases answer with
    | error why => exact ensures_throw (hbad u directory why hopened)
    | ok made => exact ensures_pure (hnext u hopened)

theorem ensures_loadState {next : Ledger → Job α} (hnext : ∀ l, Ensures good bad (next l) t)
    (hbad : ∀ e, e.phase = .opening → bad e t) :
    Ensures good bad (loadState state >>= next) t := by
  refine Ensures.bind (ensures_ask fun answer u hturnout => ?_)
  obtain rfl : u = t := hturnout.turns
  refine ensures_orFail (fun bytes _ => ?_) fun why => hbad _ rfl
  split
  · next l _ => exact ensures_pure (hnext l)
  · exact ensures_throw (hbad _ rfl)

theorem ensures_loadSettings {settings : Option Path} {next : Settings → Job α}
    (hnext : ∀ given, settingsOn? t settings = some given → Ensures good bad (next given) t)
    (hbad : ∀ e, e.phase = .reading → bad e t) :
    Ensures good bad (loadSettings settings >>= next) t := by
  cases settings with
  | none => exact Ensures.bind (ensures_pure (hnext {} rfl))
  | some p =>
    refine Ensures.bind (ensures_ask fun answer u hturnout => ?_)
    obtain rfl : u = t := hturnout.turns
    refine ensures_orFail (fun bytes hok => ?_) fun why => hbad _ rfl
    have hread : u.read p = .ok bytes := by
      obtain ⟨w, hanswer, _⟩ := hturnout.of_fault?_none (by rw [hok]; rfl)
      exact hanswer.symm.trans hok
    split
    · next given hgiven =>
      refine ensures_pure (hnext given ?_)
      rw [settingsOn?, hread]
      exact hgiven
    · exact ensures_throw (hbad _ rfl)

/-! ## Saving -/

abbrev Saves (state : Path) (t : Disk) (job : Job α) (v : Disk) : Prop :=
  Ensures (fun _ u => Saved state t u) (fun e u => e.phase.Left state t u) job v

/-- **Saving** moves the file beside over the state file, or ends early while it was at it. -/
theorem saves_saveState {l : Ledger} (hopened : Opened state t v) (hlock : HasLock state v) :
    Saves state t (saveState state l) v := by
  refine ensures_makeParent (fun u hmade => ?_) fun u _ _ hmade => hopened.trans hmade
  replace hopened := hopened.trans hmade
  replace hlock := hlock.mono hmade.grows
  refine ensures_ask fun answer created hcreate => ?_
  refine ensures_orFail (fun _ hok => ?_) fun _ => ⟨u, hopened, hcreate.turns⟩
  -- From here on it is known where the path of the file beside leads, and that is written to.
  obtain ⟨r, hleads, hcreated⟩ :
      ∃ r, u.Leads (besideOf state) r ∧ u.WrittenAt r created := by
    obtain ⟨w, hanswer, rfl⟩ := hcreate.of_fault?_none (by rw [hok]; rfl)
    obtain ⟨r, _, hleads, hwritten, _⟩ := Disk.writeWith_eq_ok (hanswer.symm.trans hok)
    exact ⟨r, hleads, hwritten⟩
  refine ensures_ask fun answer written happend => ?_
  have hwritten : u.WrittenAt r written := hcreated.written hleads happend.turns
  have hsaving : ∃ v, Opened state t v ∧ v.Written (besideOf state) written :=
    ⟨u, hopened, .inr ⟨r, hleads, hwritten⟩⟩
  refine ensures_orFail (fun _ _ => ?_) fun _ => hsaving
  refine ensures_ask fun answer synced hsync => ?_
  obtain rfl : synced = written := hsync.turns
  refine ensures_orFail (fun _ _ => ?_) fun _ => hsaving
  refine ensures_ask fun answer moved hrename => ?_
  cases answer with
  | error why =>
    obtain rfl : moved = synced := hrename.turns
    exact ensures_throw hsaving
  | ok done => exact ensures_pure (saved_of_moves hopened hlock hleads hwritten hrename.turns)

/-- What the ledger answers is saved, or the job ends without. -/
theorem saves_answered {answer : Except Stop β} {after : Ledger} {told : β → α}
    (hopened : Opened state t v) (hlock : HasLock state v) :
    Saves state t
      (orStop answer >>= fun b => saveState state after >>= fun _ => pure (told b)) v := by
  refine ensures_orStop (fun b => ?_) fun _ => left_of_opened hopened
  exact Ensures.bind ((saves_saveState hopened hlock).mono (fun _ _ h => ensures_pure h)
    fun _ _ h => h)

/-- **Under the lock** there is a name for it, and giving the lock back changes nothing. -/
theorem saves_withLock
    (hjob : ∀ u, Opened state t u → HasLock state u → Saves state t job u) :
    Saves state t (withLock state job) t := by
  refine ensures_makeParent (fun made hmade => ?_) fun u _ _ hmade => hmade
  refine ensures_ask fun answer opened hopen => ?_
  have hgains : made.GainsAtEnd (lockOf state) opened := hopen.turns
  have hopened : Opened state t opened :=
    hmade.trans (hgains.mono (fun q hfalse => hfalse.elim) fun q => id)
  refine ensures_orFail (fun b hok => ?_) fun _ => hopened
  have hlock : HasLock state opened := by
    obtain ⟨w, hanswer, rfl⟩ := hopen.of_fault?_none (by rw [hok]; rfl)
    exact Disk.named_of_openKept (hanswer.symm.trans hok)
  refine ensures_ask fun answer locked hlocks => ?_
  obtain rfl : locked = opened := hlocks.turns
  refine ensures_orFail (fun _ _ => ?_) fun _ => hopened
  refine ⟨Program.Follows.bind ((hjob locked hopened hlock).follows.mono ?_)⟩
  -- The lock is given back however the job has ended, and that is the same for both.
  intro r u hended
  refine ⟨trivial, fun _ u' hunlock => ?_⟩
  obtain rfl : u' = u := Turnout.turns hunlock
  exact hended

theorem saves_printReport {l : Ledger} (hsaved : Saved state t u) :
    Saves state t (printReport l) u :=
  ensures_say _ hsaved fun _ => hsaved

/-- A notice and the report. -/
theorem saves_printLine {l : Ledger} {text : String} (hsaved : Saved state t u) :
    Saves state t (printLine text >>= fun _ => printReport l) u :=
  Ensures.bind (ensures_say _ (saves_printReport hsaved) fun _ => hsaved)

end

/-! ## The commands -/

section

variable {t : Disk} {i : Invocation} {state : Path}

theorem saves_executeJob (state : Path) (t : Disk) : Saves state t (executeJob state) t := by
  refine Ensures.bind ((saves_withLock fun u hopened hlock => ?_).mono
    (fun _ _ hsaved => saves_printLine hsaved) fun _ _ h => h)
  exact ensures_loadState (fun l => saves_answered hopened hlock) fun _ => left_of_opened hopened

theorem saves_initiateJob (state : Path) (t : Disk) (amount destination signature : String)
    (verify : Bool) :
    Saves state t (initiateJob state amount destination signature verify) t := by
  refine ensures_orStop (fun sats => ?_) fun _ => left_of_opened (opened_refl state t)
  refine Ensures.bind ((saves_withLock fun u hopened hlock => ?_).mono
    (fun _ _ hsaved => saves_printLine hsaved) fun _ _ h => h)
  refine ensures_loadState (fun l => ?_) fun _ => left_of_opened hopened
  refine ensures_ask fun now v hnow => ?_
  obtain rfl : v = u := hnow.turns
  exact saves_answered hopened hlock

theorem saves_initJob (state : Path) (t : Disk) (settings : Option Path) (label : Option String)
    (balance : Option Sats) (force : Bool) :
    Saves state t (initJob state settings label balance force) t := by
  refine ensures_loadSettings (fun given _ => ?_) fun e he => ?_
  · refine Ensures.bind ((saves_withLock fun u hopened hlock => ?_).mono
      (fun _ _ hsaved => saves_printReport hsaved) fun _ _ h => h)
    refine ensures_isThere fun there => ?_
    split
    · exact ensures_throw hopened
    · exact saves_saveState hopened hlock
  · rw [he]
    exact rfl

/-- How a job ends that changes nothing. -/
abbrev LeavesAlone (t : Disk) (job : Job Unit) : Prop :=
  Ensures (fun _ u => u = t) (fun _ u => u = t) job t

theorem leavesAlone_report : LeavesAlone t (loadState state >>= fun l => printReport l) :=
  ensures_loadState (fun _ => ensures_say _ rfl fun _ => rfl) fun _ _ => rfl

theorem leavesAlone_signJob (secret : String) (amount : Sats) (destination : String) :
    LeavesAlone t (signJob secret amount destination) := by
  unfold signJob
  split
  · exact ensures_say _ rfl fun _ => rfl
  · exact ensures_throw rfl

theorem leavesAlone_projectJob (years : UInt32) (series : Option Path) :
    LeavesAlone t (projectJob years series) := by
  -- The series comes from a file or is fed in, and goes the same way from there.
  cases series
  all_goals
    refine ensures_ask fun answer u hturnout => ?_
    obtain rfl : u = t := hturnout.turns
    refine ensures_orFail (fun bytes _ => ?_) fun _ => rfl
    dsimp only
    split
    · exact ensures_say _ rfl fun _ => rfl
    · exact ensures_throw rfl

end

/-! ## Command lines -/

/-- A command that saves a state file. -/
def SavesState : Command → Prop
  | .init _ _ _ | .initiate _ _ _ _ | .execute => True
  | .report | .keygen _ | .sign _ _ _ | .format _ | .project _ _ => False

/-- A command that only looks and speaks. -/
def OnlyLooks : Command → Prop
  | .report | .sign _ _ _ | .format _ | .project _ _ => True
  | .init _ _ _ | .initiate _ _ _ _ | .execute | .keygen _ => False

/-- What is given with a command is of no use: settings that cannot be read or are none, an amount
that is none. -/
def Invocation.Unusable (i : Invocation) (t : Disk) : Prop :=
  match i.command with
  | .init _ _ _ => settingsOn? t i.settings = none
  | .initiate amount _ _ _ => (parseAmount amount).toOption = none
  | .report | .execute | .keygen _ | .sign _ _ _ | .format _ | .project _ _ => False

section

variable {i : Invocation} {t u : Disk} {ended : Except Ending Unit}

theorem leaves_of_ofWords {words : List String} {r : Except Halt (Except Ending Unit)}
    (hwords : Invocation.ofWords words = .ok i) (h : (lineProgram words).Leaves t r u) :
    ∃ ended, r = .ok ended ∧ i.job.run.Leaves t ended u := by
  rw [lineProgram, hwords] at h
  obtain ⟨ended, v, hrun, hdone⟩ := Program.leaves_bind h
  cases hdone with
  | done => exact ⟨ended, rfl, hrun⟩

theorem Ensures.of_leaves {good : Unit → Disk → Prop} {bad : Ending → Disk → Prop} {job : Job Unit}
    (h : Ensures good bad job t) (hrun : job.run.Leaves t ended u) :
    (ended = .ok () ∧ good () u) ∨ ∃ e, ended = .error e ∧ bad e u := by
  have hpost := h.follows.of_leaves hrun
  cases ended with
  | ok done => exact .inl ⟨rfl, hpost⟩
  | error e => exact .inr ⟨e, rfl, hpost⟩

theorem eq_of_onlyLooks (hlooks : i.command.OnlyLooks) (hrun : i.job.run.Leaves t ended u) :
    u = t := by
  have halone : LeavesAlone t i.job := by
    cases hcommand : i.command with
    | report => rw [Invocation.job, hcommand]; exact leavesAlone_report
    | sign => rw [Invocation.job, hcommand]; exact leavesAlone_signJob ..
    | format => rw [Invocation.job, hcommand]; exact ensures_say _ rfl fun _ => rfl
    | project => rw [Invocation.job, hcommand]; exact leavesAlone_projectJob ..
    | init | initiate | execute | keygen =>
      rw [hcommand] at hlooks
      exact hlooks.elim
  rcases halone.of_leaves hrun with ⟨_, hsame⟩ | ⟨_, _, hsame⟩
  · exact hsame
  · exact hsame

theorem saves_job (hsaves : i.command.SavesState) (t : Disk) : Saves i.state t i.job t := by
  cases hcommand : i.command with
  | init label balance force =>
    rw [Invocation.job, hcommand]
    exact saves_initJob i.state t i.settings label balance force
  | initiate amount destination signature verify =>
    rw [Invocation.job, hcommand]
    exact saves_initiateJob i.state t amount destination signature verify
  | execute =>
    rw [Invocation.job, hcommand]
    exact saves_executeJob i.state t
  | report | keygen | sign | format | project =>
    rw [hcommand] at hsaves
    exact hsaves.elim

theorem left_of_leaves (hsaves : i.command.SavesState) (hrun : i.job.run.Leaves t ended u) :
    (phaseOf ended).Left i.state t u := by
  rcases (saves_job hsaves t).of_leaves hrun with ⟨rfl, hsaved⟩ | ⟨e, rfl, hleft⟩
  · exact hsaved
  · exact hleft

/-- What is of no use ends a command before it has changed anything. -/
theorem eq_of_unusable (hunusable : i.Unusable t) (hrun : i.job.run.Leaves t ended u) :
    (∃ e, ended = .error e) ∧ u = t := by
  have hends : Ensures (fun _ _ => False) (fun _ u => u = t) i.job t := by
    unfold Invocation.Unusable at hunusable
    cases hcommand : i.command with
    | init label balance force =>
      rw [hcommand] at hunusable
      rw [Invocation.job, hcommand]
      refine ensures_loadSettings (fun given hgiven => ?_) fun _ _ => rfl
      exact absurd (hgiven.symm.trans hunusable) (by simp)
    | initiate amount destination signature verify =>
      rw [hcommand] at hunusable
      rw [Invocation.job, hcommand]
      replace hunusable : (parseAmount amount).toOption = none := hunusable
      show Ensures _ _ (initiateJob _ _ _ _ _) _
      unfold initiateJob
      cases hamount : parseAmount amount with
      | error why => exact ensures_throw (rfl : t = t)
      | ok sats =>
        rw [hamount] at hunusable
        cases hunusable
    | report | execute | keygen | sign | format | project =>
      rw [hcommand] at hunusable
      exact hunusable.elim
  rcases hends.of_leaves hrun with ⟨_, hfalse⟩ | ⟨e, hended, hsame⟩
  · exact hfalse.elim
  · exact ⟨⟨e, hended⟩, hsame⟩

end

/-- **The files a command line may touch.** Words that do not fit, settings and amounts that are of
no use and commands that only look leave all as it was. The others leave the disk as it may be left
in the phase they ended in, whether they succeed, fail or are cut short. -/
theorem files_are_touched_as_listed {words : List String} {t u : Disk}
    {r : Except Halt (Except Ending Unit)} (h : (lineProgram words).Leaves t r u) :
    (∀ halt, Invocation.ofWords words = .error halt → r = .error halt ∧ u = t) ∧
    ∀ i, Invocation.ofWords words = .ok i → ∃ ended, r = .ok ended ∧
      (i.command.OnlyLooks → u = t) ∧
      (i.command.SavesState → (phaseOf ended).Left i.state t u) ∧
      (i.Unusable t → (∃ e, ended = .error e) ∧ u = t) := by
  constructor
  · intro halt hwords
    rw [lineProgram, hwords] at h
    cases h with
    | done => exact ⟨rfl, rfl⟩
  · intro i hwords
    obtain ⟨ended, hended, hrun⟩ := leaves_of_ofWords hwords h
    exact ⟨ended, hended, fun hlooks => eq_of_onlyLooks hlooks hrun,
      fun hsaves => left_of_leaves hsaves hrun, fun hunusable => eq_of_unusable hunusable hrun⟩

theorem leaves_onDisk (d : Disk) (words : List String) :
    (lineProgram words).Leaves d (onDisk d words).1 (onDisk d words).2 :=
  Program.leaves_runOn _ _ _

/-- A vault that is opened where nothing was. -/
theorem files_are_touched_as_listed_of_init :
    let run := onDisk .empty ["init"]
    (lineProgram ["init"]).Leaves .empty run.1 run.2 ∧ run.1 = .ok (.ok ()) ∧
      ∃ i, Invocation.ofWords ["init"] = .ok i ∧ Saved i.state .empty run.2 := by
  have hleaves := leaves_onDisk .empty ["init"]
  have hsucceeds : (onDisk .empty ["init"]).1.toOption.bind (·.toOption) = some () := by
    decide +kernel
  generalize onDisk .empty ["init"] = run at hleaves hsucceeds ⊢
  obtain ⟨ended, hended, _, hleft, _⟩ := (files_are_touched_as_listed hleaves).2 _ rfl
  rw [hended] at hsucceeds
  obtain rfl := ok_of_toOption hsucceeds
  exact ⟨hleaves, hended, _, rfl, hleft trivial⟩

/-! ## What paths alone would say -/

def linkedBeside : Disk where
  names := [(["s.tmp"], .link "other"), (["other"], .file 0)]
  contents := [(0, [1])]

def linkedLock (target : Path) : Disk where
  names := [(["s.lock"], .link target)]
  contents := []

def twoNames : Disk where
  names := [(["s"], .file 0), (["s.tmp"], .file 0)]
  contents := [(0, [1])]

/-- **The paths of the state file, of the lock and of the file beside do not list all that is
touched.** A command that fails before it saves may have made the file beside, as a directory that
the path of the state file leads through or as the file a link in place of the lock leads to. One
that succeeds may have changed a file elsewhere, or made one, behind a link. Afterwards the file
beside may still be there, as another name of the state file, and the lock may not. -/
theorem paths_do_not_list_all :
    (let run := onDisk .empty ["--state", "s.tmp/../s", "execute"]
     run.1.toOption.map phaseOf = some .opening ∧ run.2.node? ["s.tmp"] = some .directory) ∧
    (let run := onDisk (linkedLock "s.tmp") ["--state", "s", "execute"]
     run.1.toOption.map phaseOf = some .opening ∧ run.2.node? ["s.tmp"] = some (.file 0)) ∧
    (let run := onDisk linkedBeside ["--state", "s", "init"]
     run.1.toOption.bind (·.toOption) = some () ∧
       run.2.node? ["other"] = some (.file 0) ∧ run.2.content 0 ≠ linkedBeside.content 0) ∧
    (let run := onDisk (linkedLock "far") ["--state", "s", "init"]
     run.1.toOption.bind (·.toOption) = some () ∧ run.2.node? ["far"] = some (.file 0)) ∧
    (let run := onDisk twoNames ["--state", "s", "init", "--force"]
     run.1.toOption.bind (·.toOption) = some () ∧ run.2.node? ["s.tmp"] = some (.file 0)) ∧
    (let run := onDisk (linkedLock "s.tmp") ["--state", "s", "init"]
     run.1.toOption.bind (·.toOption) = some () ∧ run.2.isThere "s.lock" = false) := by
  decide +kernel

end RetirementVault.Command
