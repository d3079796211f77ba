import RetirementVault.Proofs.Command.Effect

/-!
# Sessions over one state file

Commands are given one after another and nobody else writes the state file. Whatever goes wrong on
the way, the file tells the same story as a ledger in memory to which the commands that were done
have been applied: a command that ends early leaves no trace in it, and one that is done leaves
exactly the ledger that the call in memory leaves. A command is done when it succeeds, and also when
nothing but its last words are not heard: it speaks after it has kept its ledger, so a failing
print ends it too late to leave the file alone.

Between two commands anything may happen to other files, and inside a command any call may fail
(`Program.Runs`). A session is therefore held together by the bytes at the place of the state file
alone, which is where its path leads once the directories on the way are made. The files are a tree,
so no path of a session meets a link.
-/

set_option autoImplicit false

namespace RetirementVault.Command

open Store Job

/-- The commands that are about the state file. -/
def IsAboutLedger : Command → Prop
  | .init _ _ _ | .report | .initiate _ _ _ _ | .execute => True
  | .keygen _ | .sign _ _ _ | .format _ | .project _ _ => False

/-- A command that has been given, and how it went. -/
structure Turn where
  invocation : Invocation
  before : World
  faults : List Mishap
  result : Except Ending Unit
  after : World

namespace Turn

def found (x : Turn) : Option (List UInt8) :=
  x.before.tree.stored x.invocation.state.place

def left (x : Turn) : Option (List UInt8) :=
  x.after.tree.stored x.invocation.state.place

def ledger? (x : Turn) : Option Ledger :=
  keptLedger? x.before.tree x.invocation.state.place

/-- A turn that can have happened at a state file: the command is about the file and has run, with
calls that may have failed and then have left the file alone. -/
structure Happens (state : Path) (x : Turn) : Prop where
  state_eq : x.invocation.state = state
  about : x.invocation.command.IsAboutLedger
  runs : Runs x.invocation.state.place x.invocation.job x.before x.faults x.result x.after

/-- What a turn comes to in memory: nothing if the command ended early. -/
def play (ledger : Option Ledger) (x : Turn) : Option Ledger :=
  match x.result with
  | .ok () | .error (.unheard _) =>
    x.invocation.command.inMemory? x.before.now
      (settingsIn? x.before.tree x.invocation.settings) ledger
  | .error (.failed _) | .error (.overflow _) => ledger

/-- The reservation a turn asks for in memory goes through and leaves a ledger. -/
def Reserves (x : Turn) (amount destination signature : String) (verify : Bool) (after : Ledger) :
    Prop :=
  ∃ sats l op, parseAmount amount = .ok sats ∧ x.ledger? = some l ∧
    l.initiateVerified (verifier verify) x.before.now { amount := sats, destination, signature }
      = (.ok op, after)

/-- The settlement a turn asks for in memory goes through and leaves a ledger. -/
def Settles (x : Turn) (after : Ledger) : Prop :=
  ∃ l answer, x.ledger? = some l ∧ l.settle = (.ok answer, after)

/-- A turn in which the state file follows the ledger in memory. -/
structure Refines (x : Turn) : Prop where
  /-- A command that ended early, or that only looked, has left every byte. -/
  untouched : (∃ e, x.result = .error e ∧ e.IsEarly) ∨ x.invocation.command = .report →
    x.left = x.found
  /-- A command goes unheard only where saying something has failed. -/
  unheard : ∀ why, x.result = .error (.unheard why) →
    ∃ text, (SystemCall.print text, why) ∈ x.faults
  /-- A vault that has been opened is the file, and it has replaced another only by force or because
  the question whether there is one has failed. -/
  opened : ∀ label balance force, x.invocation.command = .init label balance force →
    IsDone x.result →
      (force = false → x.found = none ∨
        ∃ why, (SystemCall.isThere x.invocation.state, why) ∈ x.faults) ∧
      ∃ s, settingsIn? x.before.tree x.invocation.settings = some s ∧
        x.left = some (stateBytes (Ledger.ofVault
          { label := label.getD s.label, balance := balance.getD s.balance }))
  /-- A reservation that is done is in the file. -/
  reserved : ∀ amount destination signature verify,
    x.invocation.command = .initiate amount destination signature verify → IsDone x.result →
      ∃ after, x.Reserves amount destination signature verify after ∧
        x.left = some (stateBytes after)
  /-- A settlement that is done is in the file. -/
  settled : x.invocation.command = .execute → IsDone x.result →
    ∃ after, x.Settles after ∧ x.left = some (stateBytes after)
  /-- A reservation goes through exactly when no call fails and it does in memory. -/
  reserves_iff : ∀ amount destination signature verify,
    x.invocation.command = .initiate amount destination signature verify →
      (x.result = .ok () ↔
        x.faults = [] ∧ ∃ after, x.Reserves amount destination signature verify after)
  /-- A settlement goes through exactly when no call fails and it does in memory. -/
  settles_iff : x.invocation.command = .execute →
    (x.result = .ok () ↔ x.faults = [] ∧ ∃ after, x.Settles after)

end Turn

/-- Turns one after another at a state file that holds some bytes at the start. Each command finds
what the one before it has left. -/
def Session (state : Path) (bytes : Option (List UInt8)) : List Turn → Prop
  | [] => True
  | x :: later => x.Happens state ∧ x.found = bytes ∧ Session state x.left later

/-- The bytes of the state file after some turns. -/
def bytesAfter (bytes : Option (List UInt8)) (turns : List Turn) : Option (List UInt8) :=
  turns.foldl (fun _ x => x.left) bytes

/-! ## One turn -/

theorem Turn.inMemory?_initiate {x : Turn} {settings : Option Settings}
    {amount destination signature : String} {verify : Bool} {after : Ledger} :
    inMemory? x.before.now settings x.ledger? (.initiate amount destination signature verify)
      = some after ↔ x.Reserves amount destination signature verify after := by
  simp only [inMemory?, Option.bind_eq_some_iff, answered?_eq_some, Turn.Reserves]
  constructor
  · rintro ⟨sats, hsats, l, hl, op, hcall⟩
    cases hamount : parseAmount amount with
    | error why => exact absurd hsats (by simp [hamount, Except.toOption])
    | ok other =>
      have hsame : other = sats := by simpa [hamount, Except.toOption] using hsats
      exact ⟨other, l, op, rfl, hl, hsame ▸ hcall⟩
  · rintro ⟨sats, l, op, hamount, hl, hcall⟩
    exact ⟨sats, by simp [hamount, Except.toOption], l, hl, op, hcall⟩

theorem Turn.inMemory?_execute {x : Turn} (settings : Option Settings) {after : Ledger} :
    inMemory? x.before.now settings x.ledger? .execute = some after ↔ x.Settles after := by
  simp only [inMemory?, Option.bind_eq_some_iff, answered?_eq_some, Turn.Settles]
  constructor
  · rintro ⟨l, hl, answer, hcall⟩
    exact ⟨l, answer, hl, hcall⟩
  · rintro ⟨l, answer, hl, hcall⟩
    exact ⟨l, hl, answer, hcall⟩

theorem runs_report {state : Path} {kept : Location} {w u : World} {faults : List Mishap}
    {r : Except Ending Unit}
    (h : Runs kept (loadState state >>= fun l => printReport l) w faults r u) :
    u.tree.stored kept = w.tree.stored kept ∧
      ∀ why, r = .error (.unheard why) → Spoken faults r := by
  rcases runs_loadState h with hfailed | ⟨rfl, rfl, _⟩ | ⟨l, _, hsays⟩
  · refine ⟨hfailed.stored, ?_⟩
    rintro why rfl
    obtain ⟨_, hwhy⟩ := hfailed.ended
    exact absurd hwhy (by simp)
  · exact ⟨rfl, fun _ hwhy => absurd hwhy (by simp)⟩
  · obtain ⟨hspoken, hstored⟩ := speaks_say _ hsays
    exact ⟨hstored, fun _ _ => hspoken⟩

/-- **In every turn the state file follows the ledger in memory.** -/
theorem Turn.Happens.refines {state : Path} {x : Turn} (h : x.Happens state) : x.Refines := by
  obtain ⟨-, habout, hruns⟩ := h
  rcases x with ⟨⟨command, path, settings, verbose⟩, before, faults, result, after⟩
  cases command with
  | keygen | sign | format | project => exact habout.elim
  | report =>
    obtain ⟨hstored, hspoken⟩ := runs_report hruns
    exact {
      untouched := fun _ => hstored
      unheard := by
        rintro why rfl
        exact (hspoken why rfl).of_unheard
      opened := fun _ _ _ hc => nomatch hc
      reserved := fun _ _ _ _ hc => nomatch hc
      settled := fun hc => nomatch hc
      reserves_iff := fun _ _ _ _ hc => nomatch hc
      settles_iff := fun hc => nomatch hc }
  | init label balance force =>
    have hinit := runs_initJob hruns
    refine {
      untouched := ?_
      unheard := ?_
      opened := ?_
      reserved := fun _ _ _ _ hc => nomatch hc
      settled := fun hc => nomatch hc
      reserves_iff := fun _ _ _ _ hc => nomatch hc
      settles_iff := fun hc => nomatch hc }
    · rintro (⟨e, rfl, hearly⟩ | hc)
      · rcases hinit with ⟨_, _, hstored⟩ | ⟨⟨_, _, _, hspoken⟩, _⟩
        · exact hstored
        · exact absurd hspoken.isDone hearly.not_isDone
      · exact nomatch hc
    · rintro why rfl
      rcases hinit with ⟨_, hwhy, _⟩ | ⟨⟨_, _, rfl, hspoken⟩, _⟩
      · exact absurd hwhy (by simp)
      · obtain ⟨text, htext⟩ := hspoken.of_unheard
        exact ⟨text, List.mem_append_right _ htext⟩
    · rintro _ _ _ ⟨⟩ hdone
      rcases hinit with ⟨_, rfl, _⟩ | ⟨_, hfree, l, hl, hstored⟩
      · exact absurd trivial hdone
      · refine ⟨hfree, ?_⟩
        obtain ⟨s, hs, rfl⟩ := Option.map_eq_some_iff.mp hl
        exact ⟨s, hs, hstored⟩
  | initiate amount destination signature verify =>
    have hlands := lands_initiateJob hruns
    refine {
      untouched := ?_
      unheard := ?_
      opened := fun _ _ _ hc => nomatch hc
      reserved := ?_
      settled := fun hc => nomatch hc
      reserves_iff := ?_
      settles_iff := fun hc => nomatch hc }
    · rintro (⟨e, rfl, hearly⟩ | hc)
      · exact hlands.stored_of_early hearly
      · exact nomatch hc
    · rintro why rfl
      exact (hlands.spoken_of_unheard rfl).of_unheard
    · rintro _ _ _ _ ⟨⟩ hdone
      obtain ⟨l, hl, hstored⟩ := hlands.stored_of_done hdone
      exact ⟨l, inMemory?_initiate.mp hl, hstored⟩
    · rintro _ _ _ _ ⟨⟩
      refine hlands.ok_iff.trans (and_congr_right fun _ => exists_congr fun l => ?_)
      exact inMemory?_initiate
  | execute =>
    have hlands := lands_executeJob hruns
    refine {
      untouched := ?_
      unheard := ?_
      opened := fun _ _ _ hc => nomatch hc
      reserved := fun _ _ _ _ hc => nomatch hc
      settled := ?_
      reserves_iff := fun _ _ _ _ hc => nomatch hc
      settles_iff := ?_ }
    · rintro (⟨e, rfl, hearly⟩ | hc)
      · exact hlands.stored_of_early hearly
      · exact nomatch hc
    · rintro why rfl
      exact (hlands.spoken_of_unheard rfl).of_unheard
    · rintro - hdone
      obtain ⟨l, hl, hstored⟩ := hlands.stored_of_done hdone
      exact ⟨l, (inMemory?_execute none).mp hl, hstored⟩
    · rintro -
      refine hlands.ok_iff.trans (and_congr_right fun _ => exists_congr fun l => ?_)
      exact inMemory?_execute none

/-! ## Sessions -/

theorem ofBytes?_stateBytes (l : Ledger) : Ledger.ofBytes? (stateBytes l) = some l :=
  Ledger.ofBytes?_text .pretty l

/-- A turn is done, or its command ended early. -/
theorem Turn.done_or_early (x : Turn) :
    IsDone x.result ∨ ∃ e, x.result = .error e ∧ e.IsEarly := by
  rcases hresult : x.result with (why | which | why) | u
  · exact .inr ⟨_, rfl, trivial⟩
  · exact .inr ⟨_, rfl, trivial⟩
  · exact .inl id
  · exact .inl trivial

theorem Turn.play_of_early {x : Turn} {e : Ending} (h : x.result = .error e) (hearly : e.IsEarly)
    (ledger : Option Ledger) : x.play ledger = ledger := by
  unfold play
  rw [h]
  cases e with
  | failed | overflow => rfl
  | unheard => exact hearly.elim

theorem Turn.play_of_done {x : Turn} (h : IsDone x.result) (ledger : Option Ledger) :
    x.play ledger = x.invocation.command.inMemory? x.before.now
      (settingsIn? x.before.tree x.invocation.settings) ledger := by
  unfold play
  rcases hresult : x.result with (why | which | why) | u
  · rw [hresult] at h
    exact absurd trivial h
  · rw [hresult] at h
    exact absurd trivial h
  · rfl
  · rfl

/-- What is kept after a turn is what the turn comes to in memory. -/
theorem Turn.Happens.ledger_left {state : Path} {x : Turn} (h : x.Happens state) :
    x.left.bind Ledger.ofBytes? = x.play (x.found.bind Ledger.ofBytes?) := by
  have hrefines := h.refines
  have hledger : x.found.bind Ledger.ofBytes? = x.ledger? := rfl
  rcases x.done_or_early with hdone | ⟨e, hresult, hearly⟩
  · rw [Turn.play_of_done hdone]
    have habout := h.about
    cases hcommand : x.invocation.command with
    | keygen | sign | format | project =>
      rw [hcommand] at habout
      exact habout.elim
    | report => rw [hrefines.untouched (.inr hcommand)]; rfl
    | init label balance force =>
      obtain ⟨_, s, hs, hleft⟩ := hrefines.opened _ _ _ hcommand hdone
      rw [hleft, hs, Option.bind_some, ofBytes?_stateBytes]
      rfl
    | initiate amount destination signature verify =>
      obtain ⟨after, hreserves, hleft⟩ := hrefines.reserved _ _ _ _ hcommand hdone
      rw [hleft, hledger, Option.bind_some, ofBytes?_stateBytes]
      exact (inMemory?_initiate.mpr hreserves).symm
    | execute =>
      obtain ⟨after, hsettles, hleft⟩ := hrefines.settled hcommand hdone
      rw [hleft, hledger, Option.bind_some, ofBytes?_stateBytes]
      exact ((inMemory?_execute _).mpr hsettles).symm
  · rw [Turn.play_of_early hresult hearly, hrefines.untouched (.inl ⟨e, hresult, hearly⟩)]

theorem Session.happens {state : Path} {bytes : Option (List UInt8)} {turns : List Turn}
    (h : Session state bytes turns) : ∀ x ∈ turns, x.Happens state := by
  induction turns generalizing bytes with
  | nil => exact fun x hx => absurd hx (by simp)
  | cons y later ih =>
    intro x hx
    rcases List.mem_cons.mp hx with rfl | hx
    · exact h.1
    · exact ih h.2.2 x hx

/-- The ledger that is kept after a session is the one the session comes to in memory. -/
theorem Session.ledger_after {state : Path} {bytes : Option (List UInt8)} {turns : List Turn}
    (h : Session state bytes turns) :
    (bytesAfter bytes turns).bind Ledger.ofBytes?
      = turns.foldl Turn.play (bytes.bind Ledger.ofBytes?) := by
  induction turns generalizing bytes with
  | nil => rfl
  | cons x later ih =>
    obtain ⟨hhappens, hfound, hlater⟩ := h
    have hplayed := hhappens.ledger_left
    rw [hfound] at hplayed
    rw [List.foldl_cons, ← hplayed, ← ih hlater]
    rfl

/-- The turns that command lines come to when they are carried out one after another and every call
is answered as things are. -/
def steadyTurns (w : World) : List Invocation → List Turn
  | [] => []
  | i :: later =>
    { invocation := i
      before := w
      faults := i.job.run.faults w
      result := (i.job.run.run w).1
      after := (i.job.run.run w).2 } :: steadyTurns (i.job.run.run w).2 later

theorem session_steadyTurns {state : Path} {lines : List Invocation}
    (h : ∀ i ∈ lines, i.state = state ∧ i.command.IsAboutLedger) (w : World) :
    Session state (w.tree.stored state.place) (steadyTurns w lines) := by
  induction lines generalizing w with
  | nil => trivial
  | cons i later ih =>
    obtain ⟨rfl, habout⟩ := h i (by simp)
    exact ⟨⟨rfl, habout, Program.runs_run _ w⟩, rfl, ih (fun j hj => h j (by simp [hj])) _⟩

theorem ok_of_toOption {r : Except Ending Unit} (h : r.toOption = some ()) : r = .ok () := by
  cases r with
  | error e => exact absurd h (by simp [Except.toOption])
  | ok u => rfl

/-- What words do where files are as they are on a disk. -/
def onDisk (d : Disk) (words : List String) : Except Halt (Except Ending Unit) × Disk :=
  let run := (lineProgram words).runOn d { tree := .empty }
  ⟨run.1, run.2.1⟩

end RetirementVault.Command
