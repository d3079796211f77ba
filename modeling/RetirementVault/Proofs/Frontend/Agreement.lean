import RetirementVault.Proofs.Command.Session
import RetirementVault.Proofs.Command.Speech
import RetirementVault.Proofs.Ledger.Headroom
import RetirementVault.Proofs.Ledger.Identity
import RetirementVault.Screen.Desk

/-!
# The command line and the screen agree

A saver has one wish after another, to reserve or to settle. The wishes are carried out twice: by
commands over a file that a vault has just been opened in, and on a screen over a new ledger of the
same vault. `front_ends_agree` says that nobody can tell the two apart by the ledger, by which of
the wishes fail and why, or by what is said of those that do not.

Neither side knows of the other. Both ask the ledger once for a wish, after the amount has been
read, and the ledger's answer decides everything that follows (`Command.Tells` for the command). The
one answer they would treat differently is an overflow, and a new ledger never comes to that.
-/

set_option autoImplicit false

namespace RetirementVault

open Command

/-- What a saver wishes for, in words that either front end takes. -/
inductive Wish where
  | initiate (amount destination signature : String)
  | execute
  deriving DecidableEq, Repr

namespace Wish

def command (verify : Bool) : Wish → Command
  | .initiate amount destination signature => .initiate amount destination signature verify
  | .execute => .execute

def actions : Wish → List Screen.Action
  | .initiate amount destination signature =>
    [.enter .amount amount, .enter .destination destination, .enter .signature signature,
      .initiate]
  | .execute => [.execute]

/-- What a screen says of a wish that has been carried out. -/
def notice? (s : Screen) : Wish → Option String
  | .initiate _ _ _ => s.initiateResult
  | .execute => s.executeResult

end Wish

/-- The desk after a wish has been carried out at its first seat. -/
def Desk.grant (d : Desk) (now : Nat) (wish : Wish) : Desk :=
  wish.actions.foldl (fun d action => (d.move (.act 0 now action)).desk) d

/-- A text up to the end of its first line. -/
def firstLine (text : String) : String :=
  String.ofList (text.toList.takeWhile (· ≠ '\n'))

/-- A wish and the turn of the command line that carried it out. -/
structure Errand where
  wish : Wish
  turn : Turn

namespace Errand

/-- The errand is run by the command for the wish, and no call on the files fails in it. -/
structure Runs (e : Errand) (verify : Bool) : Prop where
  command : e.turn.invocation.command = e.wish.command verify
  steady : e.turn.faults = []

instance (e : Errand) (verify : Bool) : Decidable (e.Runs verify) :=
  decidable_of_iff (e.turn.invocation.command = e.wish.command verify ∧ e.turn.faults = [])
    ⟨fun ⟨command, steady⟩ => ⟨command, steady⟩, fun h => ⟨h.command, h.steady⟩⟩

/-- The desk after the wishes of some errands have been carried out there, at the times of the
errands. -/
def deskAfter (start : Desk) (errands : List Errand) : Desk :=
  errands.foldl (fun d e => d.grant e.turn.before.now e.wish) start

/-- The command line has come to the same as a screen over a ledger. -/
structure Matches (e : Errand) (l : Ledger) (s : Screen) : Prop where
  /-- The ledger in the file is the one behind the screen. -/
  ledger : e.turn.left.bind Ledger.ofBytes? = some l
  /-- The command fails exactly when the screen shows an error. -/
  fails_iff : (∃ why, e.turn.result = .error why) ↔ s.error.isSome = true
  /-- It fails with the sentence that the screen shows. -/
  sentence : ∀ ending, e.turn.result = .error ending →
    ∃ why, ending = .failed why ∧ s.error = some why.message
  /-- The first line it says is what the screen says. -/
  line : e.turn.result = .ok () → ∃ said, e.turn.after.output = e.turn.before.output ++ said ∧
    e.wish.notice? s = some (firstLine said)

end Errand

/-! ## Lines -/

def IsOneLine (text : String) : Prop :=
  '\n' ∉ text.toList

instance (text : String) : Decidable (IsOneLine text) :=
  inferInstanceAs (Decidable (_ ∉ _))

theorem IsOneLine.append {a b : String} (ha : IsOneLine a) (hb : IsOneLine b) :
    IsOneLine (a ++ b) := by
  intro h
  rw [String.toList_append] at h
  rcases List.mem_append.mp h with h | h
  · exact ha h
  · exact hb h

theorem firstLine_append {line : String} (h : IsOneLine line) (rest : String) :
    firstLine (line ++ "\n" ++ rest) = line := by
  have hline : ∀ c ∈ line.toList, decide (c ≠ '\n') = true := by
    intro c hc
    refine decide_eq_true ?_
    rintro rfl
    exact h hc
  have hchars : (line ++ "\n" ++ rest).toList = line.toList ++ '\n' :: rest.toList := by simp
  rw [firstLine, hchars, List.takeWhile_append_of_pos hline]
  simp

theorem isOneLine_decimal (n : Nat) : IsOneLine (Text.decimal n) := by
  rw [IsOneLine, Text.decimal, String.toList_ofList]
  intro h
  exact absurd (Text.isDigit_of_mem_digits h) (by decide)

/-- What is said of a reservation that a ledger has made is one line, as the id is made of digits
and dashes. -/
theorem isOneLine_reservedNotice (l : Ledger) (now : Nat) (r : Request) :
    IsOneLine (l.operation now r).reservedNotice := by
  have hfirst : IsOneLine "Pending operation created (id=" := by decide +kernel
  have hid : IsOneLine (operationId now l.nextSequence) := by
    have hop : IsOneLine "op-" := by decide +kernel
    have hdash : IsOneLine "-" := by decide +kernel
    exact ((hop.append (isOneLine_decimal _)).append hdash).append (isOneLine_decimal _)
  have hlast : IsOneLine ")." := by decide +kernel
  exact (hfirst.append hid).append hlast

theorem isOneLine_settledNotice (op : Operation) : IsOneLine op.settledNotice := by
  have hfirst : IsOneLine "Withdrawal executed for " := by decide +kernel
  have hlast : IsOneLine " sats." := by decide +kernel
  exact (hfirst.append (isOneLine_decimal _)).append hlast

/-! ## One errand -/

/-- With headroom a reservation that is not objected to finds a number, and leaves headroom. -/
theorem Ledger.Headroom.reserve {l : Ledger} {verifier : Signing.Verifier} {r : Request}
    (h : l.Headroom) (hnone : l.objection? verifier r = none) (now : Nat) :
    l.nextSequence.toNat + 1 < UInt64.size ∧ (l.reserve (l.operation now r)).Headroom := by
  have hcall := h.call (.initiateVerified verifier now r)
  have hanswer := l.initiateVerified_eq verifier now r
  rw [hnone] at hanswer
  by_cases hroom : l.nextSequence.toNat + 1 < UInt64.size
  · simp only [if_pos hroom] at hanswer
    simp only [Ledger.call, hanswer] at hcall
    exact ⟨hroom, Nat.lt_of_le_of_lt hcall.2 h⟩
  · simp only [if_neg hroom] at hanswer
    simp only [Ledger.call, hanswer] at hcall
    exact absurd trivial hcall.1

namespace Errand

variable {e : Errand} {l : Ledger} {s : Screen} {state : Store.Path} {verify : Bool}

/-- The wish is refused on both sides. -/
theorem matches_of_refused {why : Refusal} (hhappens : e.turn.Happens state)
    (hledger : e.turn.ledger? = some l)
    (hresult : e.turn.result = .error (.failed (.refused why))) : e.Matches l (s.rejected why) where
  ledger := by
    have hfound : e.turn.found.bind Ledger.ofBytes? = some l := hledger
    rw [hhappens.ledger_left, hfound, Turn.play, hresult]
  fails_iff := ⟨fun _ => rfl, fun _ => ⟨_, hresult⟩⟩
  sentence := by
    intro ending hending
    obtain rfl := Except.error.inj (hresult.symm.trans hending)
    exact ⟨_, rfl, rfl⟩
  line := fun hok => nomatch hresult.symm.trans hok

/-- The wish is granted on both sides. -/
theorem matches_of_granted {after : Ledger} {notice : String} (hhappens : e.turn.Happens state)
    (hledger : e.turn.ledger? = some l) (hresult : e.turn.result = .ok ())
    (hmeaning : e.turn.invocation.command.inMemory? e.turn.before.now
      (settingsIn? e.turn.before.tree e.turn.invocation.settings) (some l) = some after)
    (hsaid : e.turn.after.output = e.turn.before.output ++ (notice ++ "\n") ++ reportText after)
    (hline : IsOneLine notice) (hnotice : e.wish.notice? s = some notice)
    (hcalm : s.error = none) : e.Matches after s where
  ledger := by
    have hfound : e.turn.found.bind Ledger.ofBytes? = some l := hledger
    rw [hhappens.ledger_left, hfound, Turn.play, hresult]
    exact hmeaning
  fails_iff := by
    rw [hresult, hcalm]
    simp
  sentence := fun ending hending => nomatch hresult.symm.trans hending
  line := by
    intro _
    refine ⟨(notice ++ "\n") ++ reportText after, ?_, ?_⟩
    · rw [hsaid, String.append_assoc]
    · rw [hnotice, firstLine_append hline]

theorem matches_execute (hhappens : e.turn.Happens state) (hwish : e.wish = .execute)
    (hruns : e.Runs verify) (hledger : e.turn.ledger? = some l) (hroom : l.Headroom) :
    e.Matches (s.execute l).ledger (s.execute l).screen ∧ (s.execute l).ledger.Headroom := by
  have hcommand : e.turn.invocation.command = .execute := by rw [hruns.command, hwish]; rfl
  have htells : Tells (fun x => x.2.settledNotice) e.turn.before e.turn.after l.settle
      e.turn.result := by
    have hjob := hhappens.runs
    rw [Invocation.job, hcommand, hruns.steady] at hjob
    exact tells_executeJob hjob hledger
  unfold Ledger.settle at htells
  unfold Screen.execute Ledger.settle
  generalize hresult : e.turn.result = result at htells
  cases hpending : l.pending with
  | none =>
    rw [hpending] at htells
    cases htells with
    | refused => exact ⟨matches_of_refused hhappens hledger hresult, hroom⟩
  | some op =>
    rw [hpending] at htells
    cases htells with
    | granted said =>
      refine ⟨matches_of_granted hhappens hledger hresult ?_ said (isOneLine_settledNotice op) ?_
        rfl, hroom⟩
      · rw [hcommand]
        show answered? l.settle = _
        rw [Ledger.settle, hpending]
        rfl
      · rw [hwish]
        rfl

theorem matches_initiate {amount destination signature : String} (hhappens : e.turn.Happens state)
    (hwish : e.wish = .initiate amount destination signature) (hruns : e.Runs verify)
    (hledger : e.turn.ledger? = some l) (hroom : l.Headroom) (hamount : s.amountInput = amount)
    (hdestination : s.destinationInput = destination) (hsignature : s.signatureInput = signature) :
    let step := s.initiate l (verifier verify) e.turn.before.now
    e.Matches step.ledger step.screen ∧ step.ledger.Headroom := by
  subst hamount hdestination hsignature
  have hcommand : e.turn.invocation.command
      = .initiate s.amountInput s.destinationInput s.signatureInput verify := by
    rw [hruns.command, hwish]
    rfl
  have htells := hhappens.runs
  rw [Invocation.job, hcommand, hruns.steady] at htells
  rcases tells_initiateJob htells hledger with ⟨why, hunread, hresult⟩ | ⟨sats, hsats, htells⟩
  · intro step
    have hstep : step = .shown (s.rejected why) l := by
      show s.initiate l _ _ = _
      rw [Screen.initiate, hunread]
    rw [hstep]
    exact ⟨matches_of_refused hhappens hledger hresult, hroom⟩
  intro step
  have hinitiate := l.initiateVerified_eq (verifier verify) e.turn.before.now
    { amount := sats, destination := s.destinationInput, signature := s.signatureInput }
  have hstep : step = s.initiate l (verifier verify) e.turn.before.now := rfl
  rw [Screen.initiate, hsats] at hstep
  simp only [Ledger.reserveVerified] at hstep
  generalize hresult : e.turn.result = result at htells
  cases hobjection : l.objection? (verifier verify)
      { amount := sats, destination := s.destinationInput, signature := s.signatureInput } with
  | some why =>
    rw [hobjection] at hinitiate
    rw [hinitiate] at htells hstep
    cases htells with
    | refused =>
      rw [hstep]
      exact ⟨matches_of_refused hhappens hledger hresult, hroom⟩
  | none =>
    obtain ⟨hnumber, hleft⟩ := hroom.reserve hobjection e.turn.before.now
    simp only [hobjection, if_pos hnumber] at hinitiate
    rw [hinitiate] at htells hstep
    cases htells with
    | granted said =>
      rw [hstep]
      refine ⟨matches_of_granted hhappens hledger hresult ?_ said
        (isOneLine_reservedNotice l _ _) ?_ rfl, hleft⟩
      · rw [hcommand, inMemory?, hsats]
        show answered? (l.initiateVerified _ _ _) = _
        rw [hinitiate]
        rfl
      · rw [hwish]
        rfl

end Errand

/-! ## One errand after another -/

def Desk.single (verify : Bool) (l : Ledger) (s : Screen) : Desk where
  ledger := l
  seats := [{ presenter := .working (verifier verify), screen := s }]

namespace Errand

variable {e : Errand} {l : Ledger} {s : Screen} {state : Store.Path} {verify : Bool}

/-- **Carrying out a wish comes to the same** for the command line and for the one saver at a
desk. -/
theorem matches_grant (s : Screen) (hhappens : e.turn.Happens state) (hruns : e.Runs verify)
    (hledger : e.turn.ledger? = some l) (hroom : l.Headroom) :
    ∃ after s', (Desk.single verify l s).grant e.turn.before.now e.wish
        = .single verify after s' ∧ e.Matches after s' ∧ after.Headroom := by
  cases hwish : e.wish with
  | execute => exact ⟨_, _, rfl, matches_execute hhappens hwish hruns hledger hroom⟩
  | initiate amount destination signature =>
    exact ⟨_, _, rfl, matches_initiate hhappens hwish hruns hledger hroom rfl rfl rfl⟩

theorem matches_deskAfter {bytes : Option (List UInt8)} {early late : List Errand}
    (hsession : Session state bytes ((early ++ e :: late).map Errand.turn))
    (hruns : ∀ x ∈ early ++ e :: late, x.Runs verify)
    (hledger : bytes.bind Ledger.ofBytes? = some l) (hroom : l.Headroom) (s : Screen) :
    ∃ after s', deskAfter (.single verify l s) (early ++ [e]) = .single verify after s' ∧
      e.Matches after s' := by
  induction early generalizing bytes l s with
  | nil =>
    obtain ⟨hhappens, hfound, _⟩ := hsession
    rw [← hfound] at hledger
    obtain ⟨after, s', hgrant, hmatches, _⟩ :=
      matches_grant s hhappens (hruns e (by simp)) hledger hroom
    exact ⟨after, s', hgrant, hmatches⟩
  | cons x early ih =>
    obtain ⟨hhappens, hfound, hlater⟩ := hsession
    rw [← hfound] at hledger
    obtain ⟨next, s', hgrant, hmatches, hroom⟩ :=
      matches_grant s hhappens (hruns x (by simp)) hledger hroom
    -- What the turn has left in the file is the ledger that the desk goes on with.
    have hrest := ih hlater (fun y hy => hruns y (List.mem_cons_of_mem _ hy))
      hmatches.ledger hroom s'
    rw [List.cons_append, deskAfter, List.foldl_cons, hgrant]
    exact hrest

end Errand

/-- **The two front ends agree.** A vault is opened in a file, and any wishes are carried out by
commands over the file, none of which meets a failing call; the same wishes are carried out at the
same times on a screen over a new ledger of the same vault, with the same verifier. Then after every
wish the ledger in the file is the one behind the screen, the command has failed exactly when the
screen shows an error and with that sentence, and otherwise the first line that the command has said
is what the screen says. -/
theorem front_ends_agree {state : Store.Path} {bytes : Option (List UInt8)} {opening : Turn}
    {errands : List Errand} {label : String} {balance : Sats} {force verify : Bool}
    (hsession : Session state bytes (opening :: errands.map Errand.turn))
    (hopening : opening.invocation.command = .init (some label) (some balance) force)
    (hopened : opening.result = .ok ()) (hruns : ∀ e ∈ errands, e.Runs verify) :
    let start := Desk.ofPresenters (.ofVault { label, balance }) [.working (verifier verify)]
    opening.left.bind Ledger.ofBytes? = some start.ledger ∧
      ∀ early e late, errands = early ++ e :: late →
        let after := Errand.deskAfter start (early ++ [e])
        ∃ screen, after.seats = [{ presenter := .working (verifier verify), screen }] ∧
          e.Matches after.ledger screen := by
  intro start
  obtain ⟨hhappens, _, hlater⟩ := hsession
  have hdone : IsDone opening.result := by
    rw [hopened]
    trivial
  obtain ⟨_, s, _, hleft⟩ := hhappens.refines.opened _ _ _ hopening hdone
  have hledger : opening.left.bind Ledger.ofBytes? = some start.ledger := by
    rw [hleft, Option.bind_some, ofBytes?_stateBytes]
    rfl
  refine ⟨hledger, ?_⟩
  rintro early e late rfl
  obtain ⟨after, screen, hafter, hmatches⟩ :=
    Errand.matches_deskAfter hlater hruns hledger (Ledger.headroom_ofVault _)
      (Screen.ofLedger start.ledger)
  have hdesk : Errand.deskAfter start (early ++ [e]) = .single verify after screen := hafter
  rw [hdesk]
  exact ⟨screen, rfl, hmatches⟩

/-- Two reservations of which the second is turned down, a settlement, an amount that is none and
one more settlement. What the commands say is written out, and so is what the screen says of the two
wishes that are granted. -/
theorem front_ends_agree_over_five_wishes :
    let wishes : List Wish := [.initiate " 4 " "d" "s", .initiate "1" "d" "s", .execute,
      .initiate "1.5" "d" "s", .execute]
    let line (command : Command) : Invocation :=
      { command, state := "v/s", settings := none, verbose := false }
    let opening := line (.init (some "v") (some 9) false)
    let lines := wishes.map fun wish => line (wish.command false)
    let turns := steadyTurns { tree := Store.Tree.empty, now := 7 } (opening :: lines)
    let errands := List.zipWith Errand.mk wishes turns.tail
    let start := Desk.ofPresenters (.ofVault { label := "v", balance := 9 })
      [.working (verifier false)]
    let desk (count : Nat) := Errand.deskAfter start (errands.take count)
    let reserved := "Pending operation created (id=op-7-0)."
    let settled := "Withdrawal executed for 4 sats."
    let said := [reserved ++ "\n" ++ reportText (desk 1).ledger, "",
      settled ++ "\n" ++ reportText (desk 3).ledger, "", ""]
    turns.map (fun x => x.result.toOption) = [some (), some (), none, some (), none, none] ∧
      (∀ x ∈ errands.zip said, x.1.turn.after.output = x.1.turn.before.output ++ x.2) ∧
      (desk 1).seats.map (fun x => x.screen.initiateResult) = [some reserved] ∧
      (desk 3).seats.map (fun x => x.screen.executeResult) = [some settled] ∧
      (∀ e ∈ errands, e.Runs false) ∧
      ∀ early e late, errands = early ++ e :: late →
        let after := Errand.deskAfter start (early ++ [e])
        ∃ screen, after.seats = [{ presenter := .working (verifier false), screen }] ∧
          e.Matches after.ledger screen := by
  intro wishes line opening lines turns errands start desk reserved settled said
  have hlines : ∀ i ∈ opening :: lines, i.state = "v/s" ∧ i.command.IsAboutLedger := by
    simp [opening, lines, wishes, line, Wish.command, IsAboutLedger]
  have hsession := session_steadyTurns hlines { tree := Store.Tree.empty, now := 7 }
  -- One evaluation for all of it, as the turns are what takes long.
  have hturns : turns.map (fun x => x.result.toOption)
        = [some (), some (), none, some (), none, none] ∧
      (∀ x ∈ errands.zip said, x.1.turn.after.output = x.1.turn.before.output ++ x.2) ∧
      (desk 1).seats.map (fun x => x.screen.initiateResult) = [some reserved] ∧
      (desk 3).seats.map (fun x => x.screen.executeResult) = [some settled] ∧
      ∀ e ∈ errands, e.Runs false := by
    decide +kernel
  obtain ⟨hresults, hsaid, hreserved, hsettled, hruns⟩ := hturns
  have hopened := ok_of_toOption (List.cons.inj hresults).1
  have hagree := front_ends_agree hsession rfl hopened hruns
  exact ⟨hresults, hsaid, hreserved, hsettled, hruns, hagree.2⟩

end RetirementVault
