import RetirementVault.Proofs.Command.Session
import RetirementVault.Proofs.Program.Crowd

/-!
# How a command conducts itself among others

A command that is not alone may find the files changed between any two of its calls, except for what
it has the lock for. Its stages are those of the lock and of the file it writes beside the state
file: it waits, it holds the lock and the state file is as it found it, it has begun to write, the
file it has written has replaced the state file, it has given the lock back.

`Invocation.Allows` is the discipline all commands keep. Nothing is written beside the state file
but by a holder of the lock, and nothing replaces the state file but what the command makes of the
bytes it has found there (`Makes`). `follows_job` proves it of every command about the state file,
answer by answer, and says how each of them ends: as a success or unheard when it has replaced the
file, and otherwise for a reason (`Blames`).
-/

set_option autoImplicit false

namespace RetirementVault.Command

open Store Job

/-- The file whose lock guards a state file. -/
abbrev lockOf (state : Path) : Path :=
  state.sibling ".lock"

/-- The file that is written before it replaces a state file. -/
abbrev besideOf (state : Path) : Path :=
  state.sibling ".tmp"

/-! ## Stages -/

/-- How far a command has come. -/
inductive Stage where
  /-- It does not hold the lock. The file of the lock may have been opened. -/
  | waiting (opened : Bool)
  /-- It holds the lock and has found these bytes in the state file. -/
  | holding (found : Option (List UInt8))
  /-- It has made the file beside and these bytes are in it. -/
  | writing (found : Option (List UInt8)) (written : List UInt8)
  /-- What it has written is the state file. -/
  | replaced (found : Option (List UInt8))
  /-- It has given the lock back, after replacing the state file or without. -/
  | left (found : Option (List UInt8)) (committed : Bool)

namespace Stage

/-- These may be the bytes it has found; before it holds the lock it has found nothing yet. -/
def Saw (found : Option (List UInt8)) : Stage → Prop
  | .waiting _ => True
  | .holding f | .writing f _ | .replaced f | .left f _ => f = found

/-- It holds the lock, and the state file is still as it was found. -/
def IsInside : Stage → Prop
  | .holding _ | .writing _ _ => True
  | .waiting _ | .replaced _ | .left _ _ => False

/-- It has replaced the state file. -/
def IsCommitted : Stage → Prop
  | .replaced _ | .left _ true => True
  | .waiting _ | .holding _ | .writing _ _ | .left _ false => False

/-! What calls do to a stage that they are made at. The file beside is made anew (`begun`),
something is added to it (`added`), a call on it fails and nothing is known of it any more
(`spoilt`), it becomes the state file (`moved`), the lock is given back (`unlocked`). -/

def begun : Stage → Stage
  | .holding f | .writing f _ => .writing f []
  | s => s

def added (bytes : List UInt8) : Stage → Stage
  | .writing f written => .writing f (written ++ bytes)
  | s => s

def spoilt : Stage → Stage
  | .holding f | .writing f _ => .holding f
  | s => s

def moved : Stage → Stage
  | .writing f _ => .replaced f
  | s => s

def unlocked : Stage → Stage
  | .holding f | .writing f _ => .left f false
  | .replaced f => .left f true
  | s => s

/-- The stages an answer can lead to. Under the lock an answer about the state file is about the
bytes that were found. -/
def Goes (state : Path) (s : Stage) : (c : SystemCall) → c.Answer → Stage → Prop
  | .openKept _, .ok (), s' => s' = .waiting true
  | .lock _, .ok (), s' => ∃ found, s' = .holding found
  | .unlock _, (), s' => s' = s.unlocked
  | .create _, .ok (), s' => s' = s.begun
  | .create _, .error _, s' => s' = s.spoilt
  | .append _ bytes, .ok (), s' => s' = s.added bytes
  | .append _ _, .error _, s' => s' = s.spoilt
  | .rename _ _, .ok (), s' => s' = s.moved
  | .read p, .ok bytes, s' => s' = s ∧ (p = state → s.IsInside → s.Saw (some bytes))
  | .isThere p, .ok there, s' => s' = s ∧ (p = state → s.IsInside → there = false → s.Saw none)
  | _, _, s' => s' = s

end Stage

/-- What a command has been told: the time, what it has read as settings, that a call has failed,
that there is a state file. A question whether there is one and what the command says itself may
fail too, and are noted apart because they end nothing that is still to be done. -/
structure Notes where
  clock : Option Nat := none
  config : Option (List UInt8) := none
  met : Bool := false
  present : Bool := false
  blind : Bool := false
  unheard : Bool := false

/-- A stage with what has been told up to it. -/
structure Progress where
  stage : Stage
  notes : Notes

def readsClock : Command → Bool
  | .initiate _ _ _ _ => true
  | _ => false

/-- A command that works on a ledger it has found. -/
def NeedsLedger : Command → Prop
  | .initiate _ _ _ _ | .execute => True
  | .init _ _ _ | .report | .keygen _ | .sign _ _ _ | .format _ | .project _ _ => False

namespace Invocation

def noted (i : Invocation) (k : Notes) : (c : SystemCall) → c.Answer → Notes
  | .now, n => { k with clock := some n }
  | .isThere _, .ok true => { k with present := true }
  | .isThere _, .error _ => { k with blind := true }
  | .print _, .error _ => { k with unheard := true }
  | .read p, .ok bytes => if i.settings = some p then { k with config := some bytes } else k
  | c, answer =>
    match c.fault? answer with
    | some _ => { k with met := true }
    | none => k

/-- The settings that a command goes by, given what it has read. -/
def settingsGiven (i : Invocation) (config : Option (List UInt8)) : Option Settings :=
  match i.settings with
  | none => some {}
  | some _ => config.bind Settings.ofBytes?

/-- The bytes are what the command makes of the state file it has found. -/
def Makes (i : Invocation) (k : Notes) (found : Option (List UInt8)) (bytes : List UInt8) : Prop :=
  ∃ now l, (i.command.readsClock = true → k.clock = some now) ∧
    inMemory? now (i.settingsGiven k.config) (found.bind Ledger.ofBytes?) i.command = some l ∧
    (∀ label balance, i.command = .init label balance false → found = none ∨ k.blind = true) ∧
    bytes = stateBytes l

/-- The command comes to nothing in memory with what it has found and been told. -/
def Refused (i : Invocation) (k : Notes) (found : Option (List UInt8)) : Prop :=
  ∀ now settings, (∀ n, k.clock = some n → now = n) →
    inMemory? now settings (found.bind Ledger.ofBytes?) i.command = none

/-- The reasons for a command to end early. Whatever it does not blame on something it was told, it
blames on what was in the state file when it had the lock. -/
inductive Blames (i : Invocation) (g : Progress) : Prop
  /-- A call has failed. -/
  | fault (met : g.notes.met = true)
  /-- There is a state file, and it is not to be overwritten. -/
  | present (label : Option String) (balance : Option Sats)
    (command : i.command = .init label balance false) (there : g.notes.present = true)
  /-- What was read as settings is none. -/
  | settings {bytes : List UInt8} (label : Option String) (balance : Option Sats) (force : Bool)
    (command : i.command = .init label balance force) (read : g.notes.config = some bytes)
    (unfit : Settings.ofBytes? bytes = none)
  /-- The ledger refuses, or there is none. -/
  | refused (needs : i.command.NeedsLedger)
    (refused : ∀ found, g.stage.Saw found → i.Refused g.notes found)

/-- The calls a command may make at a stage. -/
def Allows (i : Invocation) (g : Progress) : SystemCall → Prop
  | .openKept p => p = lockOf i.state ∧ ∃ opened, g.stage = .waiting opened
  | .lock p => p = lockOf i.state ∧ g.stage = .waiting true
  | .unlock p => p = lockOf i.state ∧ (g.stage.IsInside ∨ ∃ found, g.stage = .replaced found)
  | .create p => p = besideOf i.state ∧ g.stage.IsInside
  | .append p _ => p = besideOf i.state ∧ ∃ found written, g.stage = .writing found written
  | .rename source target => source = besideOf i.state ∧ target = i.state ∧
    ∃ found written, g.stage = .writing found written ∧ i.Makes g.notes found written
  | .isThere p => p = i.state
  | .makeDirs _ | .read _ | .sync _ | .now | .random _ | .input | .print _ => True

def protocol (i : Invocation) : Program.Protocol Progress where
  allows := i.Allows
  goes g c answer g' :=
    g.stage.Goes i.state c answer g'.stage ∧ g'.notes = i.noted g.notes c answer

/-- How a command ends that does not succeed: it has replaced the state file and was not heard, or
it has not replaced it and has a reason. -/
def Lapses (i : Invocation) : Ending → Progress → Prop
  | .unheard _, g => g.stage.IsCommitted ∧ g.notes.unheard = true
  | .failed _, g | .overflow _, g => ¬ g.stage.IsCommitted ∧ i.Blames g

/-- How a command ends: it has succeeded and replaced the state file, or it lapses. Nothing is said
of a command that only looks. -/
def Ends (i : Invocation) (r : Except Ending Unit) (g : Progress) : Prop :=
  i.command ≠ .report →
    match r with
    | .ok () => g.stage.IsCommitted
    | .error e => i.Lapses e g

theorem lapses_of_early {i : Invocation} {e : Ending} {g : Progress} (hearly : e.IsEarly)
    (hnot : ¬ g.stage.IsCommitted) (hblames : i.Blames g) : i.Lapses e g := by
  cases e with
  | failed | overflow => exact ⟨hnot, hblames⟩
  | unheard => exact hearly.elim

end Invocation

/-! ## Jobs that keep to the protocol

A job is gone through in the order of its calls; `heeds_ask` takes the first one off. That a call
has failed is noted by the protocol itself, so a job that ends early at once has its reason. -/

section

variable {α β : Type} {i : Invocation} {g : Progress} {k : Notes}

/-- A job keeps to the protocol from a stage on; something holds where it ends well and something
where it ends early. -/
def Heeds (i : Invocation) (good : α → Progress → Prop) (bad : Ending → Progress → Prop)
    (job : Job α) (g : Progress) : Prop :=
  job.run.Follows i.protocol
    (fun r g' =>
      match r with
      | .ok a => good a g'
      | .error e => bad e g') g

variable {good good' : α → Progress → Prop} {bad bad' : Ending → Progress → Prop} {job : Job α}

theorem Heeds.mono (h : Heeds i good bad job g) (hgood : ∀ a g', good a g' → good' a g')
    (hbad : ∀ e g', bad e g' → bad' e g') : Heeds i good' bad' job g := by
  refine Program.Follows.mono h ?_
  intro r g'
  cases r with
  | ok a => exact hgood a g'
  | error e => exact hbad e g'

theorem Heeds.bind {then' : β → Progress → Prop} {next : α → Job β}
    (h : Heeds i (fun a g' => Heeds i then' bad (next a) g') bad job g) :
    Heeds i then' bad (job >>= next) g := by
  refine Program.Follows.bind (Program.Follows.mono h ?_)
  intro r g'
  cases r with
  | ok a => exact id
  | error e => exact id

theorem heeds_pure {a : α} (h : good a g) : Heeds i good bad (pure a) g :=
  h

theorem heeds_throw {e : Ending} (h : bad e g) : Heeds i good bad (throw e : Job α) g :=
  h

theorem heeds_ask {c : SystemCall} {next : c.Answer → Job α} {s : Stage}
    (hallows : i.Allows ⟨s, k⟩ c)
    (hnext : ∀ answer s', s.Goes i.state c answer s' →
      Heeds i good bad (next answer) ⟨s', i.noted k c answer⟩) :
    Heeds i good bad (ask c >>= next) ⟨s, k⟩ := by
  refine ⟨hallows, ?_⟩
  rintro answer ⟨s', k'⟩ ⟨hgoes, rfl⟩
  exact hnext answer s' hgoes

theorem heeds_makeParent (p : Path) {s : Stage} {next : Unit → Job α}
    (hnext : Heeds i good bad (next ()) ⟨s, k⟩)
    (hbad : ∀ why, bad (.failed why) ⟨s, { k with met := true }⟩) :
    Heeds i good bad (makeParent p >>= next) ⟨s, k⟩ := by
  unfold makeParent
  split
  · exact hnext
  · refine Heeds.bind (heeds_ask trivial ?_)
    rintro (why | ⟨⟩) _ rfl
    · exact heeds_throw (hbad _)
    · exact heeds_pure hnext

/-- **Writing the state file** replaces it, or has met a fault. -/
theorem heeds_writeFile {found : Option (List UInt8)} {bytes : List UInt8}
    {good : Unit → Progress → Prop} (hmakes : i.Makes k found bytes)
    (hgood : good () ⟨.replaced found, k⟩)
    (hbad : ∀ why s, s.IsInside → bad (.failed why) ⟨s, { k with met := true }⟩) :
    Heeds i good bad (writeFile i.state bytes) ⟨.holding found, k⟩ := by
  refine heeds_makeParent _ ?_ fun why => hbad why _ trivial
  refine heeds_ask ⟨rfl, trivial⟩ ?_
  rintro (why | ⟨⟩) _ rfl
  · exact heeds_throw (hbad _ _ trivial)
  refine heeds_ask ⟨rfl, _, _, rfl⟩ ?_
  rintro (why | ⟨⟩) _ rfl
  · exact heeds_throw (hbad _ _ trivial)
  refine heeds_ask trivial ?_
  rintro (why | ⟨⟩) _ rfl
  · exact heeds_throw (hbad _ _ trivial)
  refine heeds_ask ⟨rfl, rfl, _, _, rfl, hmakes⟩ ?_
  rintro (why | ⟨⟩) _ rfl
  · exact heeds_throw (hbad _ _ trivial)
  exact heeds_pure hgood

theorem Invocation.Blames.unlocked {s : Stage} (h : i.Blames ⟨s, k⟩) (hinside : s.IsInside) :
    i.Blames ⟨s.unlocked, k⟩ := by
  cases h with
  | fault met => exact .fault met
  | present _ _ command there => exact .present _ _ command there
  | settings _ _ _ command read unfit => exact .settings _ _ _ command read unfit
  | refused needs refused =>
    cases s with
    | waiting | replaced | left => exact hinside.elim
    | holding | writing => exact .refused needs refused

/-- A job under the lock has ended early, with the state file as it was found and for a reason. -/
structure Invocation.GivesUp (i : Invocation) (e : Ending) (g : Progress) : Prop where
  early : e.IsEarly
  inside : g.stage.IsInside
  blames : i.Blames g

theorem givesUp_of_met (why : Failure) {s : Stage} (hinside : s.IsInside) :
    i.GivesUp (.failed why) ⟨s, { k with met := true }⟩ :=
  ⟨trivial, hinside, .fault rfl⟩

/-- **Under the lock** a job is to replace the state file or to end early for a reason. -/
theorem heeds_withLock {opened : Bool}
    (hjob : ∀ found, Heeds i (fun _ g' => ∃ f, g'.stage = .replaced f) i.GivesUp job
      ⟨.holding found, k⟩) :
    Heeds i (fun _ g' => g'.stage.IsCommitted) i.Lapses (withLock i.state job)
      ⟨.waiting opened, k⟩ := by
  have hfault (opened : Bool) (why : Failure) :
      i.Lapses (.failed why) ⟨.waiting opened, { k with met := true }⟩ := ⟨id, .fault rfl⟩
  refine heeds_makeParent _ ?_ (hfault opened)
  refine heeds_ask ⟨rfl, _, rfl⟩ ?_
  rintro (why | ⟨⟩) _ rfl
  · exact heeds_throw (hfault opened _)
  refine heeds_ask ⟨rfl, rfl⟩ ?_
  rintro (why | ⟨⟩) s hgoes
  · obtain rfl := hgoes
    exact heeds_throw (hfault true _)
  obtain ⟨found, rfl⟩ := hgoes
  show Heeds i _ _ (job.andAlways (.unlock (lockOf i.state))) ⟨.holding found, k⟩
  refine Program.Follows.bind (Program.Follows.mono (hjob found) ?_)
  -- However the job has ended, the lock is given back, and that changes nothing else.
  rintro (e | a) ⟨s, k'⟩ hended
  · obtain ⟨hearly, hinside, hblames⟩ := hended
    refine ⟨⟨rfl, .inl hinside⟩, ?_⟩
    rintro ⟨⟩ ⟨_, notes⟩ ⟨rfl, hnotes⟩
    obtain rfl : notes = k' := hnotes
    -- What was found under the lock is still known when it is given back.
    cases s with
    | waiting | replaced | left => exact hinside.elim
    | holding | writing => exact Invocation.lapses_of_early hearly id (hblames.unlocked trivial)
  · obtain ⟨f, rfl⟩ := hended
    refine ⟨⟨rfl, .inr ⟨f, rfl⟩⟩, ?_⟩
    rintro ⟨⟩ ⟨_, _⟩ ⟨rfl, _⟩
    exact trivial

theorem heeds_loadState {found : Option (List UInt8)} {next : Ledger → Job α}
    (hnext : ∀ l k', found.bind Ledger.ofBytes? = some l → k'.clock = k.clock →
      Heeds i good bad (next l) ⟨.holding found, k'⟩)
    (hfault : ∀ why, bad (.failed why) ⟨.holding found, { k with met := true }⟩)
    (hnone : ∀ why k', found.bind Ledger.ofBytes? = none →
      bad (.failed why) ⟨.holding found, k'⟩) :
    Heeds i good bad (loadState i.state >>= next) ⟨.holding found, k⟩ := by
  refine Heeds.bind (heeds_ask trivial ?_)
  rintro (why | bytes) s hgoes
  · obtain rfl := hgoes
    exact heeds_throw (hfault _)
  obtain ⟨rfl, hsaw⟩ := hgoes
  have hfound : found = some bytes := hsaw rfl trivial
  have hclock : (i.noted k (.read i.state) (.ok bytes)).clock = k.clock := by
    show (if i.settings = some i.state then _ else k : Notes).clock = k.clock
    split
    · rfl
    · rfl
  refine Heeds.bind (heeds_pure ?_)
  cases hledger : Ledger.ofBytes? bytes with
  | none =>
    refine heeds_throw (hnone _ _ ?_)
    rw [hfound]
    exact hledger
  | some l =>
    refine heeds_pure (hnext l _ ?_ hclock)
    rw [hfound]
    exact hledger

theorem heeds_loadSettings {s : Stage} {next : Settings → Job α}
    (hnext : ∀ given k', i.settingsGiven k'.config = some given →
      Heeds i good bad (next given) ⟨s, k'⟩)
    (hfault : ∀ why, bad (.failed why) ⟨s, { k with met := true }⟩)
    (hnone : ∀ why bytes k', k'.config = some bytes → Settings.ofBytes? bytes = none →
      bad (.failed why) ⟨s, k'⟩) :
    Heeds i good bad (loadSettings i.settings >>= next) ⟨s, k⟩ := by
  cases hpath : i.settings with
  | none => exact hnext {} k (by rw [Invocation.settingsGiven, hpath])
  | some p =>
    refine Heeds.bind (heeds_ask trivial ?_)
    rintro (why | bytes) s' hgoes
    · obtain rfl := hgoes
      exact heeds_throw (hfault _)
    obtain ⟨rfl, _⟩ := hgoes
    have hread : (i.noted k (.read p) (.ok bytes)).config = some bytes := by
      show (if i.settings = some p then _ else k : Notes).config = _
      rw [if_pos hpath]
    refine Heeds.bind (heeds_pure ?_)
    cases hsettings : Settings.ofBytes? bytes with
    | none => exact heeds_throw (hnone _ bytes _ hread hsettings)
    | some given =>
      refine heeds_pure (hnext given _ ?_)
      rw [hread, Invocation.settingsGiven, hpath]
      exact hsettings

theorem heeds_answered {found : Option (List UInt8)} {answer : Except Stop β} {after : Ledger}
    {told : β → α}
    (hmakes : ∀ b, answer = .ok b → i.Makes k found (stateBytes after))
    (hneeds : i.command.NeedsLedger)
    (hrefused : ∀ why, answer = .error why → i.Refused k found) :
    Heeds i (fun _ g' => ∃ f, g'.stage = .replaced f) i.GivesUp
      (orStop answer >>= fun b => saveState i.state after >>= fun _ => pure (told b))
      ⟨.holding found, k⟩ := by
  cases answer with
  | error why =>
    refine heeds_throw ⟨Ending.isEarly_ofStop why, trivial, .refused hneeds ?_⟩
    rintro _ rfl
    exact hrefused why rfl
  | ok b =>
    refine Heeds.bind (heeds_pure ?_)
    refine Heeds.bind (heeds_writeFile (hmakes b rfl) ?_ fun why s => givesUp_of_met why)
    exact heeds_pure ⟨found, rfl⟩

/-- What is said afterwards changes nothing about what a job has done. -/
theorem heeds_say (text : String) (h : g.stage.IsCommitted) :
    Heeds i (fun _ g' => g'.stage.IsCommitted) i.Lapses (say text) g := by
  refine heeds_ask (c := .print text) trivial ?_
  rintro (why | ⟨⟩) _ rfl
  · exact heeds_throw ⟨h, rfl⟩
  · exact heeds_pure h

end

/-! ## The commands -/

namespace Invocation

variable {i : Invocation}

def Concludes (i : Invocation) (job : Job Unit) (g : Progress) : Prop :=
  Heeds i (fun _ g' => g'.stage.IsCommitted) i.Lapses job g

theorem concludes_initJob {label : Option String} {balance : Option Sats} {force : Bool}
    (hcommand : i.command = .init label balance force) :
    i.Concludes (initJob i.state i.settings label balance force) ⟨.waiting false, {}⟩ := by
  refine heeds_loadSettings ?_ (fun _ => ⟨id, .fault rfl⟩) ?_
  · intro given k hgiven
    refine Heeds.bind ((heeds_withLock fun found => ?_).mono (fun _ g' h => heeds_say _ h)
      fun _ _ h => h)
    have hmakes {k' : Notes} (hconfig : k'.config = k.config)
        (hfree : force = false → found = none ∨ k'.blind = true) :
        i.Makes k' found (stateBytes (overridden given label balance).openLedger) := by
      refine ⟨0, _, ?_, ?_, ?_, rfl⟩
      · rw [hcommand]
        exact fun h => nomatch h
      · rw [hcommand, hconfig, hgiven]
        rfl
      · intro label' balance' hinit
        rw [hcommand] at hinit
        cases hinit
        exact hfree rfl
    refine Heeds.bind (heeds_ask (c := .isThere i.state) rfl ?_)
    rintro (why | there) s hgoes
    · obtain rfl := hgoes
      -- Where it cannot be seen whether there is a state file, the ledger is kept.
      exact heeds_pure (heeds_writeFile (hmakes rfl fun _ => .inr rfl) ⟨found, rfl⟩
        fun why s => givesUp_of_met why)
    obtain ⟨rfl, hsaw⟩ := hgoes
    refine heeds_pure ?_
    cases there with
    | false =>
      have hfree : found = none := hsaw rfl trivial rfl
      exact heeds_writeFile (hmakes rfl fun _ => .inl hfree) ⟨found, rfl⟩
        fun why s => givesUp_of_met why
    | true =>
      cases force with
      | false => exact heeds_throw ⟨trivial, trivial, .present _ _ hcommand rfl⟩
      | true =>
        exact heeds_writeFile (hmakes rfl fun h => nomatch h) ⟨found, rfl⟩
          fun why s => givesUp_of_met why
  · intro why bytes k hread hunfit
    exact ⟨id, .settings _ _ _ hcommand hread hunfit⟩

theorem refused_of_none {k : Notes} {found : Option (List UInt8)} (hneeds : i.command.NeedsLedger)
    (hnone : found.bind Ledger.ofBytes? = none) : i.Refused k found := by
  intro now settings _
  rw [hnone]
  cases hcommand : i.command with
  | execute => rfl
  | initiate amount destination signature verify =>
    rw [inMemory?]
    cases (parseAmount amount).toOption with
    | none => rfl
    | some sats => rfl
  | init | report | keygen | sign | format | project =>
    rw [hcommand] at hneeds
    exact hneeds.elim

theorem concludes_executeJob (hcommand : i.command = .execute) :
    i.Concludes (executeJob i.state) ⟨.waiting false, {}⟩ := by
  have hneeds : i.command.NeedsLedger := by rw [hcommand]; exact trivial
  refine Heeds.bind ((heeds_withLock fun found => ?_).mono (fun _ g' h => ?_) fun _ _ h => h)
  · refine heeds_loadState ?_ (fun why => givesUp_of_met why trivial) ?_
    · intro l k hl _
      refine heeds_answered ?_ hneeds ?_
      · intro b hanswer
        refine ⟨0, l.settle.2, ?_, ?_, ?_, rfl⟩
        · rw [hcommand]
          exact fun h => nomatch h
        · rw [hl, hcommand]
          exact answered?_eq_some.mpr ⟨b, Prod.ext hanswer rfl⟩
        · rw [hcommand]
          exact fun _ _ h => nomatch h
      · intro why hanswer now _ _
        rw [hl, hcommand]
        exact answered?_eq_none hanswer
    · intro why k hnone
      refine ⟨trivial, trivial, .refused hneeds ?_⟩
      rintro _ rfl
      exact refused_of_none hneeds hnone
  · exact Heeds.bind ((heeds_say _ h).mono (fun _ g' h => heeds_say _ h) fun _ _ h => h)

theorem concludes_initiateJob {amount destination signature : String} {verify : Bool}
    (hcommand : i.command = .initiate amount destination signature verify) :
    i.Concludes (initiateJob i.state amount destination signature verify) ⟨.waiting false, {}⟩ := by
  have hneeds : i.command.NeedsLedger := by rw [hcommand]; exact trivial
  unfold initiateJob
  cases hamount : parseAmount amount with
  | error why =>
    refine heeds_throw ⟨id, .refused hneeds ?_⟩
    intro found _ now settings _
    rw [hcommand, inMemory?, hamount]
    rfl
  | ok sats =>
    refine Heeds.bind (heeds_pure ?_)
    refine Heeds.bind ((heeds_withLock fun found => ?_).mono (fun _ g' h => ?_) fun _ _ h => h)
    · refine heeds_loadState ?_ (fun why => givesUp_of_met why trivial) ?_
      · intro l k hl _
        refine heeds_ask trivial ?_
        rintro now s rfl
        refine heeds_answered ?_ hneeds ?_
        · intro b hanswer
          refine ⟨now, _, fun _ => rfl, ?_, ?_, rfl⟩
          · rw [hl, hcommand, inMemory?, hamount]
            exact answered?_eq_some.mpr ⟨b, Prod.ext hanswer rfl⟩
          · rw [hcommand]
            intro _ _ h
            cases h
        · intro why hanswer now' settings hnow
          obtain rfl := hnow now rfl
          rw [hl, hcommand, inMemory?, hamount]
          exact answered?_eq_none hanswer
      · intro why k hnone
        refine ⟨trivial, trivial, .refused hneeds ?_⟩
        rintro _ rfl
        exact refused_of_none hneeds hnone
    · exact Heeds.bind ((heeds_say _ h).mono (fun _ g' h => heeds_say _ h) fun _ _ h => h)

/-- A command that only looks reads without the lock. -/
theorem heeds_report :
    Heeds i (fun _ _ => True) (fun _ _ => True) (loadState i.state >>= fun l => printReport l)
      ⟨.waiting false, {}⟩ := by
  refine Heeds.bind (heeds_ask trivial ?_)
  rintro (why | bytes) s _
  · exact heeds_throw trivial
  refine Heeds.bind (heeds_pure ?_)
  cases Ledger.ofBytes? bytes with
  | none => exact heeds_throw trivial
  | some l =>
    refine heeds_pure (heeds_ask (c := .print (reportText l)) trivial ?_)
    rintro (why | ⟨⟩) s _
    · exact heeds_throw trivial
    · exact heeds_pure trivial

/-- **Every command about the state file keeps to the protocol**, and ends as a success or unheard
when it has replaced the file, otherwise for a reason. -/
theorem follows_job (habout : i.command.IsAboutLedger) :
    i.job.run.Follows i.protocol i.Ends ⟨.waiting false, {}⟩ := by
  have hconcludes {job : Job Unit} (h : i.Concludes job ⟨.waiting false, {}⟩) :
      job.run.Follows i.protocol i.Ends ⟨.waiting false, {}⟩ := by
    refine Program.Follows.mono h ?_
    rintro (e | ⟨⟩) g hended _
    · exact hended
    · exact hended
  cases hcommand : i.command with
  | keygen | sign | format | project =>
    rw [hcommand] at habout
    exact habout.elim
  | init label balance force =>
    rw [job, hcommand]
    exact hconcludes (concludes_initJob hcommand)
  | initiate amount destination signature verify =>
    rw [job, hcommand]
    exact hconcludes (concludes_initiateJob hcommand)
  | execute =>
    rw [job, hcommand]
    exact hconcludes (concludes_executeJob hcommand)
  | report =>
    rw [job, hcommand]
    refine Program.Follows.mono heeds_report ?_
    intro r g _ hmutates
    exact absurd hcommand hmutates

end Invocation

end RetirementVault.Command
