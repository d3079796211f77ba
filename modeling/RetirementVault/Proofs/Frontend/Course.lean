import RetirementVault.Proofs.Command.Session
import RetirementVault.Proofs.Ledger.Signed
import RetirementVault.Proofs.Screen.Desk

/-!
# The course of a vault

A ledger is worked on from three sides: by calls, on screens, and by commands over the file it is
kept in. In the course of a vault they follow each other in any order; the ledger goes into a file
before a command and is read back after it.

Whatever the side, an episode makes at most one call on the ledger and leaves it as that call does
(`Episode.Happens.ledger_after`). So what calls keep is kept in the course of a vault. The only
thing that comes from elsewhere is a vault that is opened by command, and that is an idle one.
-/

set_option autoImplicit false

namespace RetirementVault

def Command.call? (now : Nat) : Command → Option Call
  | .initiate amount destination signature verify =>
    (parseAmount amount).toOption.map fun amount =>
      .initiateVerified (verifier verify) now { amount, destination, signature }
  | .execute => some .settle
  | .init _ _ _ | .report | .keygen _ | .sign _ _ _ | .format _ | .project _ _ => none

/-- The call on the ledger that a turn comes to. A command that ends early has come to none. -/
def Command.Turn.call? (x : Command.Turn) : Option Call :=
  match x.result with
  | .ok () | .error (.unheard _) => x.invocation.command.call? x.before.now
  | .error (.failed _) | .error (.overflow _) => none

theorem Command.Turn.call?_of_ok {x : Command.Turn} (h : x.result = .ok ()) :
    x.call? = x.invocation.command.call? x.before.now := by
  rw [Command.Turn.call?, h]

/-- Something done about a vault. -/
inductive Deed where
  /-- Done at a desk: on a screen or behind the screens. -/
  | desk (h : Desk.Happening)
  /-- Done by a command over the file that the ledger is kept in. -/
  | command (x : Command.Turn)

/-- A deed with the desk it is done at and the one that is there afterwards. -/
structure Episode where
  before : Desk
  deed : Deed
  after : Desk

namespace Episode

/-- An episode that can have been. A command finds the ledger in its file, and the desk afterwards
is one over the ledger that the command has left there. -/
def Happens (e : Episode) : Prop :=
  match e.deed with
  | .desk h => e.after = (e.before.happen h).desk
  | .command x =>
    x.Happens x.invocation.state ∧ x.ledger? = some e.before.ledger ∧
      x.left.bind Ledger.ofBytes? = some e.after.ledger

def call? (e : Episode) : Option Call :=
  match e.deed with
  | .desk h => e.before.call? h
  | .command x => x.call?

/-- The call with what it found and what it was answered. -/
def event? (e : Episode) : Option Ledger.Event :=
  e.call?.map e.before.ledger.event

/-- An episode in which nothing is reserved that is not signed for. -/
def IsGuarded (e : Episode) : Prop :=
  ∀ c, e.call? = some c → (e.before.ledger.event c).reserved?.isSome = true → c.AsksForSignature

end Episode

/-- Episodes one after another, from a desk on. -/
def Course (start : Desk) : List Episode → Prop
  | [] => True
  | e :: later => e.before = start ∧ e.Happens ∧ Course e.after later

def deskAfter (start : Desk) (course : List Episode) : Desk :=
  course.foldl (fun _ e => e.after) start

def eventsOf (course : List Episode) : List Ledger.Event :=
  course.filterMap Episode.event?

/-! ## One episode -/

/-- What a command makes of a ledger is what its call makes of it, unless it opens a vault. -/
theorem Command.call_of_inMemory? {now : Nat} {settings : Option Settings} {l after : Ledger}
    {command : Command} (h : inMemory? now settings (some l) command = some after) :
    after = (command.call? now).elim l (fun c => (l.call c).2) ∨
      (command.call? now = none ∧ after.pending = none) := by
  cases command with
  | report | keygen | sign | format | project => exact .inl (Option.some.inj h).symm
  | init label balance force =>
    obtain ⟨s, _, rfl⟩ := Option.map_eq_some_iff.mp h
    exact .inr ⟨rfl, rfl⟩
  | initiate amount destination signature verify =>
    obtain ⟨sats, hsats, h⟩ := Option.bind_eq_some_iff.mp h
    obtain ⟨op, hcall⟩ := answered?_eq_some.mp h
    refine .inl ?_
    rw [call?, hsats, Option.map_some, Option.elim, Ledger.call, hcall]
  | execute =>
    obtain ⟨answer, hcall⟩ := answered?_eq_some.mp h
    refine .inl ?_
    rw [call?, Option.elim, Ledger.call, hcall]

/-- **An episode leaves the ledger as its call leaves it**, and as it was if it makes none, unless
it is a command that opens a vault. -/
theorem Episode.Happens.ledger_after {e : Episode} (h : e.Happens) :
    e.after.ledger = e.call?.elim e.before.ledger (fun c => (e.before.ledger.call c).2) ∨
      (e.call? = none ∧ e.after.ledger.pending = none) := by
  rcases e with ⟨before, deed, after⟩
  cases deed with
  | desk happening =>
    obtain rfl : after = (before.happen happening).desk := h
    exact .inl (before.ledger_happen happening)
  | command x =>
    obtain ⟨hhappens, hfound, hleft⟩ := h
    have hplay : x.play (some before.ledger) = some after.ledger := by
      rw [← hleft, hhappens.ledger_left]
      exact congrArg x.play hfound.symm
    unfold Command.Turn.play at hplay
    simp only [Episode.call?, Command.Turn.call?]
    rcases hresult : x.result with (why | which | why) | u
    all_goals rw [hresult] at hplay
    · exact .inl (Option.some.inj hplay).symm
    · exact .inl (Option.some.inj hplay).symm
    · exact Command.call_of_inMemory? hplay
    · exact Command.call_of_inMemory? hplay

/-- A turn leaves the state file as it was or puts a ledger there. -/
theorem Command.Turn.Happens.left_cases {state : Store.Path} {x : Command.Turn}
    (h : x.Happens state) : x.left = x.found ∨ ∃ l, x.left = some (stateBytes l) := by
  have hrefines := h.refines
  rcases x.done_or_early with hdone | hended
  · have habout := h.about
    cases hcommand : x.invocation.command with
    | keygen | sign | format | project =>
      rw [hcommand] at habout
      exact habout.elim
    | report => exact .inl (hrefines.untouched (.inr hcommand))
    | init label balance force =>
      obtain ⟨_, _, _, hleft⟩ := hrefines.opened _ _ _ hcommand hdone
      exact .inr ⟨_, hleft⟩
    | initiate amount destination signature verify =>
      obtain ⟨after, _, hleft⟩ := hrefines.reserved _ _ _ _ hcommand hdone
      exact .inr ⟨after, hleft⟩
    | execute =>
      obtain ⟨after, _, hleft⟩ := hrefines.settled hcommand hdone
      exact .inr ⟨after, hleft⟩
  · exact .inl (hrefines.untouched (.inl hended))

/-- A turn that finds a ledger leaves one. -/
theorem Command.Turn.Happens.leaves_ledger {state : Store.Path} {x : Command.Turn} {l : Ledger}
    (h : x.Happens state) (hfound : x.ledger? = some l) :
    ∃ left, x.left.bind Ledger.ofBytes? = some left := by
  rcases h.left_cases with hsame | ⟨after, hleft⟩
  · rw [hsame]
    exact ⟨l, hfound⟩
  · rw [hleft, Option.bind_some]
    exact ⟨after, ofBytes?_stateBytes after⟩

/-- Every command that finds a desk's ledger in its file is an episode at that desk. -/
theorem Command.Turn.Happens.episode {state : Store.Path} {x : Command.Turn} {d : Desk}
    (h : x.Happens state) (hfound : x.ledger? = some d.ledger) :
    ∃ after, Episode.Happens { before := d, deed := .command x, after } := by
  obtain ⟨left, hleft⟩ := h.leaves_ledger hfound
  exact ⟨{ ledger := left, seats := [] }, h.state_eq ▸ h, hfound, hleft⟩

/-- **An episode keeps everything signed for**, if it reserves nothing that is not. -/
theorem Episode.Happens.allSignedFor {e : Episode} {past : List Ledger.Event} (h : e.Happens)
    (hguarded : e.IsGuarded) (hsigned : Ledger.AllSignedFor past e.before.ledger) :
    Ledger.AllSignedFor (past ++ e.event?.toList) e.after.ledger := by
  have hleft := h.ledger_after
  unfold Episode.event?
  cases hcall : e.call? with
  | some c =>
    rw [hcall] at hleft
    rcases hleft with hafter | ⟨hnone, _⟩
    · rw [hafter]
      exact hsigned.call (hguarded c hcall)
    · exact nomatch hnone
  | none =>
    rw [hcall] at hleft
    -- No call, so the ledger is the old one or that of a vault just opened.
    intro op hop
    simp only [Option.map_none, Option.toList_none, List.append_nil] at hop ⊢
    refine hsigned op ?_
    rcases hleft with hafter | ⟨_, hidle⟩
    · rwa [hafter] at hop
    · rw [hidle] at hop
      exact List.mem_append_left _ (by simpa using hop)

/-! ## A whole course -/

theorem Course.allSignedFor {start : Desk} {course : List Episode} {past : List Ledger.Event}
    (h : Course start course) (hguarded : ∀ e ∈ course, e.IsGuarded)
    (hsigned : Ledger.AllSignedFor past start.ledger) :
    Ledger.AllSignedFor (past ++ eventsOf course) (deskAfter start course).ledger := by
  -- On the episodes, with the calls before them growing at their end.
  induction course generalizing start past with
  | nil => rwa [eventsOf, List.filterMap_nil, List.append_nil]
  | cons e later ih =>
    obtain ⟨rfl, hhappens, hlater⟩ := h
    have hfirst := hhappens.allSignedFor (hguarded e (by simp)) hsigned
    have hrest := ih hlater (fun x hx => hguarded x (by simp [hx])) hfirst
    rw [eventsOf, Ledger.filterMap_cons_toList, ← List.append_assoc]
    exact hrest

/-- **Every withdrawal was signed for.** From an idle ledger on, whatever is called, done on screens
and commanded in whatever order, as long as nothing is reserved without asking for a signature: for
the withdrawal that is pending and for every one that has ever been settled there was a request for
just its amount and its destination with a signature over both. -/
theorem every_withdrawal_signed_for {start : Desk} {course : List Episode}
    (hidle : start.ledger.pending = none) (h : Course start course)
    (hguarded : ∀ e ∈ course, e.IsGuarded) :
    ∀ op ∈ Ledger.settledIn (eventsOf course) ++ (deskAfter start course).ledger.pending.toList,
      Ledger.SignedFor (eventsOf course) op :=
  h.allSignedFor hguarded (Ledger.allSignedFor_of_idle hidle)

def Command.Invocation.turn (i : Command.Invocation) (w : World) : Command.Turn where
  invocation := i
  before := w
  faults := i.job.run.faults w
  result := (i.job.run.run w).1
  after := (i.job.run.run w).2

theorem Command.happens_turn {i : Command.Invocation} (h : i.command.IsAboutLedger) (w : World) :
    (i.turn w).Happens i.state :=
  ⟨rfl, h, Program.runs_run _ w⟩

/-- A screen reserves with a signature over the request on it, and a command settles what has been
reserved. -/
theorem every_withdrawal_signed_for_of_two :
    let key := "03a107bff3ce10be1d70dd18e74bc09967e4d6309ba50d5f1ddc8664125531b8"
    let signature := "fa4882bbe422e1a0549bdd803bcc4b5c05312f84fc87dc5cfa8355d3d3207d47" ++
      "a2a987f727984d3a65d440eba9ad084ad81cbf13635e9e92a90f6578f0c5770b"
    let screen : Screen :=
      { label := "v", balance := 10, amountInput := " 4 ", destinationInput := key
        signatureInput := signature, pending := none }
    let start : Desk :=
      { ledger := .ofVault { label := "v", balance := 10 }
        seats := [{ presenter := .working Signing.ed25519, screen }] }
    let reserves : Desk.Happening := .moves (.act 0 7 .initiate)
    let op : Operation := { id := "op-7-0", amount := 4, destination := key }
    let held : Ledger :=
      { vault := { label := "v", balance := 6 }, pending := some op, nextSequence := 1 }
    let line : Command.Invocation :=
      { command := .execute, state := "s", settings := none, verbose := false }
    let world : World :=
      { tree := Store.Tree.empty.put ["s"] (.file (Command.stateBytes held)) }
    ∃ left, let course : List Episode :=
        [{ before := start, deed := .desk reserves, after := (start.happen reserves).desk },
          { before := (start.happen reserves).desk
            deed := .command (line.turn world)
            after := left }]
      Course start course ∧ op ∈ Ledger.settledIn (eventsOf course) ∧
        Ledger.SignedFor (eventsOf course) op := by
  intro key signature screen start reserves op held line world
  -- The signature is checked here and nowhere else.
  have hheld : (start.happen reserves).desk.ledger = held := by decide +kernel
  have hends : (line.turn world).result = .ok () := Command.ok_of_toOption (by decide +kernel)
  have hfound : (line.turn world).ledger? = some (start.happen reserves).desk.ledger := by
    have hkept (bytes : List UInt8) :
        Command.Job.keptLedger? (Store.Tree.empty.put ["s"] (.file bytes)) (Store.Path.place "s")
          = Ledger.ofBytes? bytes := rfl
    rw [hheld]
    exact (hkept _).trans (Command.ofBytes?_stateBytes held)
  obtain ⟨left, hleft⟩ := (Command.happens_turn (i := line) trivial world).episode hfound
  refine ⟨left, ?_⟩
  intro course
  have hcourse : Course start course := ⟨rfl, rfl, rfl, hleft, trivial⟩
  have hamount : (parseAmount screen.amountInput).toOption = some 4 := by decide
  have hasks : start.call? reserves
      = some (.reserveVerified Signing.ed25519 7 (screen.request 4)) :=
    congrArg
      (Option.map fun sats => Call.reserveVerified Signing.ed25519 7 (screen.request sats)) hamount
  let last : Episode :=
    { before := (start.happen reserves).desk, deed := .command (line.turn world), after := left }
  have hsettles : last.call? = some .settle := Command.Turn.call?_of_ok hends
  have hguarded : ∀ e ∈ course, e.IsGuarded := by
    intro e he c hc hreserved
    rcases List.mem_cons.mp he with rfl | he
    · exact ⟨_, _, .inr (Option.some.inj (hc.symm.trans hasks))⟩
    · obtain rfl := List.mem_singleton.mp he
      obtain rfl : c = .settle := Option.some.inj (hc.symm.trans hsettles)
      obtain ⟨_, hop⟩ := Option.isSome_iff_exists.mp hreserved
      obtain ⟨_, _, hnothing, _⟩ := Ledger.reserved_event hop
      exact nomatch hnothing
  have hsettled : op ∈ Ledger.settledIn (eventsOf course) := by
    refine List.mem_filterMap.mpr ⟨held.event .settle, ?_, rfl⟩
    refine List.mem_filterMap.mpr ⟨_, List.mem_cons_of_mem _ (List.mem_singleton_self _), ?_⟩
    rw [← hheld]
    exact congrArg (Option.map (start.happen reserves).desk.ledger.event) hsettles
  exact ⟨hcourse, hsettled,
    every_withdrawal_signed_for rfl hcourse hguarded op (List.mem_append_left _ hsettled)⟩

end RetirementVault
