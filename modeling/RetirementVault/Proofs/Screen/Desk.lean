import RetirementVault.Proofs.Screen.Acting
import RetirementVault.Screen.Desk

/-!
# What screens show that share a ledger

Screens are opened over a ledger at any time and acted on in any order, mock-ups stand among them,
calls are made that no screen hears of, and a verifier that remembers what it was asked may answer
otherwise from one time to the next. A screen is a copy of the ledger that is renewed by its
own successes only, so it may show what has long been changed by others; but what it shows is never
made up. It is the ledger as it stood right after the screen's last success, or as the screen found
it when it was opened (`Mirrors`).

Two facts carry this: what one thing that happens can do to a seat (`Seated`), and what an action
makes of the copy on its screen (`Screen.Copies`).
-/

set_option autoImplicit false

namespace RetirementVault.Desk

/-- What can happen at a desk over time. -/
inductive Happening where
  /-- A screen is opened over the ledger. -/
  | opens (verifier : Signing.Verifier)
  /-- A mock-up is put up, with whatever it shows. -/
  | displays (screen : Screen)
  /-- The verifier behind a working screen has become another, by what it remembers. -/
  | turns (seat : Nat) (verifier : Signing.Verifier)
  | moves (m : Move)

def Happening.IsAt (h : Happening) (i : Nat) : Prop :=
  ∃ now action, h = .moves (.act i now action)

/-- The desk with one more seat, of which nobody is told. -/
def add (d : Desk) (seat : Seat) : Outcome where
  desk := { d with seats := d.seats ++ [seat] }
  told := none
  answer := none
  overflow := none

/-- A seat whose verifier has become another; a mock-up has none. -/
def turned (verifier : Signing.Verifier) (seat : Seat) : Seat :=
  match seat.presenter with
  | .working _ => { seat with presenter := .working verifier }
  | .mockUp => seat

/-- What a happening makes of a seat it is not at: only the verifier may be another. -/
def Happening.aside (h : Happening) (i : Nat) (seat : Seat) : Seat :=
  match h with
  | .turns j verifier => if j = i then turned verifier seat else seat
  | .opens _ | .displays _ | .moves _ => seat

def happen (d : Desk) : Happening → Outcome
  | .opens verifier => d.add { presenter := .working verifier, screen := .ofLedger d.ledger }
  | .displays screen => d.add { presenter := .mockUp, screen }
  | .turns i verifier =>
    { desk := { d with seats := d.seats.modify i (turned verifier) }
      told := none
      answer := none
      overflow := none }
  | .moves m => d.move m

/-- A happening at a desk as it is found. -/
structure Scene where
  before : Desk
  happening : Happening

namespace Scene

def outcome (x : Scene) : Outcome :=
  x.before.happen x.happening

def after (x : Scene) : Desk :=
  x.outcome.desk

/-- The arithmetic has left its range. -/
def Panics (x : Scene) : Prop :=
  x.outcome.overflow.isSome = true ∨ ∃ answer ∈ x.outcome.answer, Overflows answer

instance (x : Scene) : Decidable x.Panics :=
  inferInstanceAs (Decidable (_ ∨ _))

/-- The seat has made a call on the ledger and it has been granted. -/
def Succeeds (x : Scene) (i : Nat) : Prop :=
  ∃ seat now action, x.before.seats[i]? = some seat ∧ x.happening = .moves (.act i now action) ∧
    seat.screen.IsGranted x.before.ledger now seat.presenter action

/-- The seat's copy of the ledger is new: the screen has been opened, or it has had a success. -/
def Renews (x : Scene) (i : Nat) : Prop :=
  (∃ verifier, x.happening = .opens verifier ∧ x.before.seats.length = i) ∨ x.Succeeds i

/-- A scene that is nobody's business but its own seat's. -/
structure Confined (x : Scene) : Prop where
  /-- No other screen changes and nobody who watches one is told. -/
  others : ∀ i seat, x.before.seats[i]? = some seat → ¬ x.happening.IsAt i →
    x.after.seats[i]? = some (x.happening.aside i seat) ∧ x.outcome.told ≠ some i
  /-- Whoever watches a working screen is told of every action on it. -/
  working : ∀ i seat verifier, x.before.seats[i]? = some seat →
    seat.presenter = .working verifier → x.happening.IsAt i → x.outcome.told = some i
  /-- A mock-up does nothing to the ledger. -/
  mockUp : ∀ i seat, x.before.seats[i]? = some seat → seat.presenter = .mockUp →
    x.happening.IsAt i → x.after.ledger = x.before.ledger

end Scene

/-- What happens one after another. -/
def scenes (d : Desk) : List Happening → List Scene
  | [] => []
  | h :: hs => ⟨d, h⟩ :: (d.happen h).desk.scenes hs

/-- The desk that is left in the end. -/
def after (d : Desk) (hs : List Happening) : Desk :=
  hs.foldl (fun d h => (d.happen h).desk) d

/-- A screen's balance and withdrawal are the ledger's as they stood right after the last scene that
renewed the seat's copy. -/
def CopiedLast (past : List Scene) (i : Nat) (screen : Screen) : Prop :=
  ∃ early x late, past = early ++ x :: late ∧ x.Renews i ∧ (∀ y ∈ late, ¬ y.Renews i) ∧
    screen.balance = x.after.ledger.balance ∧ screen.pending = x.after.ledger.pending

/-- What a working screen shows after some scenes. -/
structure Mirrors (past : List Scene) (now : Desk) (i : Nat) (screen : Screen) : Prop where
  /-- It shows the ledger's label. -/
  label : screen.label = now.ledger.vault.label
  /-- It shows the ledger as the screen found it or left it last. -/
  own : CopiedLast past i screen
  /-- It shows the ledger as it is if nobody else has changed it since the screen was opened. -/
  alone : (∀ x ∈ past, i < x.before.seats.length → x.after.ledger ≠ x.before.ledger →
      x.happening.IsAt i) →
    screen.balance = now.ledger.balance ∧ screen.pending = now.ledger.pending

/-- What a mock-up shows: what it was put up with, except for the inputs. -/
def Jots (past : List Scene) (i : Nat) (screen : Screen) : Prop :=
  ∃ x ∈ past, ∃ first, x.happening = .displays first ∧ x.before.seats.length = i ∧
    screen = first.withInputs screen

/-- Every screen shows what it should. -/
def Faithful (past : List Scene) (now : Desk) : Prop :=
  ∀ (i : Nat) (seat : Seat), now.seats[i]? = some seat →
    match seat.presenter with
    | .working _ => Mirrors past now i seat.screen
    | .mockUp => Jots past i seat.screen

variable {d : Desk} {h : Happening} {i : Nat} {seat : Seat} {past : List Scene}

/-! ## One happening -/

/-- How a seat has come to be what it is. -/
inductive Seated (d : Desk) : Happening → Nat → Seat → Prop
  /-- It was there, and what happened was elsewhere. -/
  | kept {h : Happening} {i : Nat} {old : Seat} (elsewhere : ¬ h.IsAt i)
    (before : d.seats[i]? = some old) : Seated d h i (h.aside i old)
  | opened (verifier : Signing.Verifier) :
    Seated d (.opens verifier) d.seats.length
      { presenter := .working verifier, screen := .ofLedger d.ledger }
  | displayed (screen : Screen) :
    Seated d (.displays screen) d.seats.length { presenter := .mockUp, screen }
  | acted {i now : Nat} {action : Screen.Action} {old : Seat} (before : d.seats[i]? = some old) :
    Seated d (.moves (.act i now action)) i
      { old with screen := (old.screen.act d.ledger now old.presenter action).screen }

theorem turned_cases (verifier : Signing.Verifier) (seat : Seat) :
    (∃ old, seat.presenter = .working old ∧
      turned verifier seat = { seat with presenter := .working verifier }) ∨
    seat.presenter = .mockUp ∧ turned verifier seat = seat := by
  unfold turned
  cases seat.presenter with
  | working old => exact .inl ⟨old, rfl, rfl⟩
  | mockUp => exact .inr ⟨rfl, rfl⟩

/-- A happening elsewhere leaves a screen as it is, and a working one working. -/
theorem aside_cases (h : Happening) (i : Nat) (seat : Seat) :
    (∃ old verifier, seat.presenter = .working old ∧
      h.aside i seat = { seat with presenter := .working verifier }) ∨
    seat.presenter = .mockUp ∧ h.aside i seat = seat := by
  have hsame : (∃ old verifier, seat.presenter = .working old ∧
      seat = { seat with presenter := .working verifier }) ∨
      seat.presenter = .mockUp ∧ seat = seat := by
    rcases seat with ⟨old | _, screen⟩
    · exact .inl ⟨old, old, rfl, rfl⟩
    · exact .inr ⟨rfl, rfl⟩
  cases h with
  | opens | displays | moves => exact hsame
  | turns j verifier =>
    unfold Happening.aside
    dsimp only
    split
    · exact (turned_cases verifier seat).imp_left fun ⟨old, hworks, hturned⟩ =>
        ⟨old, verifier, hworks, hturned⟩
    · exact hsame

theorem move_of_seat (hseat : d.seats[i]? = some seat) (now : Nat) (action : Screen.Action) :
    d.move (.act i now action) =
      let step := seat.screen.act d.ledger now seat.presenter action
      { desk :=
          { ledger := step.ledger, seats := d.seats.set i { seat with screen := step.screen } }
        told := if step.told then some i else none
        answer := none
        overflow := step.overflow } := by
  rw [move, hseat]

theorem move_of_no_seat (hnone : d.seats[i]? = none) (now : Nat) (action : Screen.Action) :
    d.move (.act i now action) = { desk := d, told := none, answer := none, overflow := none } := by
  rw [move, hnone]

theorem getElem?_concat_eq_some {α : Type} {as : List α} {a b : α} {i : Nat}
    (h : (as ++ [a])[i]? = some b) : as[i]? = some b ∨ (i = as.length ∧ b = a) := by
  rcases Nat.lt_trichotomy i as.length with hlt | rfl | hgt
  · exact .inl (List.getElem?_append_left hlt ▸ h)
  · rw [List.getElem?_concat_length] at h
    exact .inr ⟨rfl, (Option.some.inj h).symm⟩
  · rw [List.getElem?_eq_none (by simp; omega)] at h
    exact absurd h (by simp)

theorem seated_happen (hseat : (d.happen h).desk.seats[i]? = some seat) : Seated d h i seat := by
  cases h with
  | opens verifier =>
    rcases getElem?_concat_eq_some hseat with hold | ⟨rfl, rfl⟩
    · exact .kept (fun ⟨_, _, heq⟩ => nomatch heq) hold
    · exact .opened verifier
  | displays screen =>
    rcases getElem?_concat_eq_some hseat with hold | ⟨rfl, rfl⟩
    · exact .kept (fun ⟨_, _, heq⟩ => nomatch heq) hold
    · exact .displayed screen
  | turns j verifier =>
    simp only [happen, List.getElem?_modify] at hseat
    obtain ⟨old, hold, rfl⟩ := Option.map_eq_some_iff.mp hseat
    exact .kept (fun ⟨_, _, heq⟩ => nomatch heq) hold
  | moves m =>
    cases m with
    | call c => exact .kept (fun ⟨_, _, heq⟩ => nomatch heq) hseat
    | act j now action =>
      cases hold : d.seats[j]? with
      | none =>
        rw [happen, move_of_no_seat hold] at hseat
        refine .kept ?_ hseat
        rintro ⟨_, _, ⟨⟩⟩
        exact nomatch hold.symm.trans hseat
      | some old =>
        -- Only the seat that is acted at is replaced.
        rw [happen, move_of_seat hold] at hseat
        by_cases hij : j = i
        · subst hij
          have hlt : j < d.seats.length := (List.getElem?_eq_some_iff.mp hold).1
          rw [List.getElem?_set_self hlt] at hseat
          obtain rfl := Option.some.inj hseat
          exact .acted hold
        · rw [List.getElem?_set_ne hij] at hseat
          refine .kept ?_ hseat
          rintro ⟨_, _, ⟨⟩⟩
          exact hij rfl

/-- What is not at a seat leaves its screen as it is. -/
theorem seat_of_elsewhere (hseat : d.seats[i]? = some seat) (helse : ¬ h.IsAt i) :
    (d.happen h).desk.seats[i]? = some (h.aside i seat) ∧ (d.happen h).told ≠ some i := by
  have hlt : i < d.seats.length := (List.getElem?_eq_some_iff.mp hseat).1
  cases h with
  | opens | displays => exact ⟨(List.getElem?_append_left hlt).trans hseat, nofun⟩
  | turns j verifier =>
    refine ⟨?_, nofun⟩
    simp only [happen, List.getElem?_modify, hseat]
    rfl
  | moves m =>
    cases m with
    | call c => exact ⟨hseat, nofun⟩
    | act j now action =>
      have hij : j ≠ i := by
        rintro rfl
        exact helse ⟨now, action, rfl⟩
      cases hold : d.seats[j]? with
      | none =>
        rw [happen, move_of_no_seat hold]
        exact ⟨hseat, nofun⟩
      | some old =>
        rw [happen, move_of_seat hold]
        refine ⟨(List.getElem?_set_ne hij).trans hseat, ?_⟩
        dsimp only
        split
        · exact fun heq => hij (Option.some.inj heq)
        · exact nofun

/-- The call on the ledger that a happening makes. -/
def call? (d : Desk) : Happening → Option Call
  | .opens _ | .displays _ | .turns _ _ => none
  | .moves (.call c) => some c
  | .moves (.act i now action) =>
    d.seats[i]?.bind fun seat => seat.screen.call? now seat.presenter action

/-- **A happening leaves the ledger as its call leaves it**, and as it was if it makes none. -/
theorem ledger_happen (d : Desk) (h : Happening) :
    (d.happen h).desk.ledger = (d.call? h).elim d.ledger fun c => (d.ledger.call c).2 := by
  cases h with
  | opens | displays | turns => rfl
  | moves m =>
    cases m with
    | call c => rfl
    | act i now action =>
      cases hold : d.seats[i]? with
      | none => rw [happen, move_of_no_seat hold, call?, hold]; rfl
      | some seat =>
        rw [happen, move_of_seat hold, call?, hold]
        exact (seat.screen.comesTo_act d.ledger now seat.presenter action).ledger_eq

/-- Nothing that happens at a desk changes whose vault it is. -/
theorem label_happen (d : Desk) (h : Happening) :
    (d.happen h).desk.ledger.vault.label = d.ledger.vault.label := by
  rw [ledger_happen]
  cases d.call? h with
  | none => rfl
  | some c => exact d.ledger.label_call c

theorem overflow_of_calm {now : Nat} {action : Screen.Action} (hseat : d.seats[i]? = some seat)
    (hcalm : ¬ Scene.Panics ⟨d, .moves (.act i now action)⟩) :
    (seat.screen.act d.ledger now seat.presenter action).overflow = none := by
  have hnone : ¬ (d.move (.act i now action)).overflow.isSome = true := fun hsome =>
    hcalm (.inl hsome)
  rw [move_of_seat hseat] at hnone
  simpa using hnone

/-- An action that does not panic, at a working seat. -/
theorem comesTo_of_calm {now : Nat} {action : Screen.Action} {verifier : Signing.Verifier}
    (hseat : d.seats[i]? = some seat) (hworks : seat.presenter = .working verifier)
    (hcalm : ¬ Scene.Panics ⟨d, .moves (.act i now action)⟩) :
    let step := seat.screen.act d.ledger now (.working verifier) action
    step.told = true ∧ step.screen.label = seat.screen.label ∧
      Screen.Copies seat.screen d.ledger
        (seat.screen.IsGranted d.ledger now (.working verifier) action) step := by
  refine (seat.screen.comesTo_act d.ledger now (.working verifier) action).shows ?_
  exact hworks ▸ overflow_of_calm hseat hcalm

theorem confined_of_calm (x : Scene) (hcalm : ¬ x.Panics) : x.Confined := by
  rcases x with ⟨d, h⟩
  refine {
    others := fun i seat hseat helse => seat_of_elsewhere hseat helse
    working := ?_
    mockUp := ?_ }
  · rintro i seat verifier hseat hworks ⟨now, action, rfl⟩
    show (d.move _).told = some i
    rw [move_of_seat hseat, hworks]
    simp only [(comesTo_of_calm hseat hworks hcalm).1, if_true]
  · rintro i seat hseat hmock ⟨now, action, rfl⟩
    show (d.move _).desk.ledger = d.ledger
    rw [move_of_seat hseat, hmock]
    exact (seat.screen.comesTo_act d.ledger now .mockUp action).mockUp.1

/-! ## One scene after others -/

theorem CopiedLast.of_renews {x : Scene} {screen : Screen} (hrenews : x.Renews i)
    (hbalance : screen.balance = x.after.ledger.balance)
    (hpending : screen.pending = x.after.ledger.pending) : CopiedLast (past ++ [x]) i screen :=
  ⟨past, x, [], rfl, hrenews, nofun, hbalance, hpending⟩

theorem CopiedLast.of_not_renews {x : Scene} {screen later : Screen} (h : CopiedLast past i screen)
    (hnot : ¬ x.Renews i) (hbalance : later.balance = screen.balance)
    (hpending : later.pending = screen.pending) : CopiedLast (past ++ [x]) i later := by
  obtain ⟨early, last, late, rfl, hrenews, hlate, hold⟩ := h
  -- The last renewal stays where it is, and the new scene joins those after it.
  refine ⟨early, last, late ++ [x], by simp, hrenews, fun y hy => ?_,
    hbalance.trans hold.1, hpending.trans hold.2⟩
  rcases List.mem_append.mp hy with hy | hy
  · exact hlate y hy
  · rw [List.mem_singleton.mp hy]
    exact hnot

theorem not_renews_of_elsewhere (hlt : i < d.seats.length) (helse : ¬ h.IsAt i) :
    ¬ Scene.Renews ⟨d, h⟩ i := by
  rintro (⟨_, _, hlast⟩ | ⟨_, now, action, _, hacts, _⟩)
  · exact absurd hlast (Nat.ne_of_gt hlt)
  · exact helse ⟨now, action, hacts⟩

theorem Mirrors.of_elsewhere {screen : Screen} (hshown : Mirrors past d i screen)
    (hlt : i < d.seats.length) (helse : ¬ h.IsAt i) :
    Mirrors (past ++ [⟨d, h⟩]) (d.happen h).desk i screen where
  label := hshown.label.trans (label_happen d h).symm
  own := hshown.own.of_not_renews (not_renews_of_elsewhere hlt helse) rfl rfl
  alone := by
    intro hothers
    -- This scene is not at the seat, so it has left the ledger alone.
    have hsame : (d.happen h).desk.ledger = d.ledger :=
      Decidable.byContradiction fun hchanged => helse (hothers ⟨d, h⟩ (by simp) hlt hchanged)
    rw [hsame]
    exact hshown.alone fun x hx => hothers x (List.mem_append_left _ hx)

theorem mirrors_opens (past : List Scene) (d : Desk) (verifier : Signing.Verifier) :
    Mirrors (past ++ [⟨d, .opens verifier⟩]) (d.happen (.opens verifier)).desk d.seats.length
      (.ofLedger d.ledger) where
  label := rfl
  own := .of_renews (.inl ⟨verifier, rfl, rfl⟩) rfl rfl
  alone := fun _ => ⟨rfl, rfl⟩

/-- An action on a working screen either renews its copy or leaves both the copy and the ledger. -/
theorem Mirrors.act {seat : Seat} {verifier : Signing.Verifier} {now : Nat} {action : Screen.Action}
    (hshown : Mirrors past d i seat.screen) (hseat : d.seats[i]? = some seat)
    (hworks : seat.presenter = .working verifier)
    (hcalm : ¬ Scene.Panics ⟨d, .moves (.act i now action)⟩) :
    Mirrors (past ++ [⟨d, .moves (.act i now action)⟩]) (d.move (.act i now action)).desk i
      (seat.screen.act d.ledger now (.working verifier) action).screen := by
  have hlt : i < d.seats.length := (List.getElem?_eq_some_iff.mp hseat).1
  have hledger : (d.move (.act i now action)).desk.ledger
      = (seat.screen.act d.ledger now (.working verifier) action).ledger := by
    rw [move_of_seat hseat, hworks]
  have hsucceeds : Scene.Succeeds ⟨d, .moves (.act i now action)⟩ i ↔
      seat.screen.IsGranted d.ledger now (.working verifier) action := by
    constructor
    · rintro ⟨_, _, _, hseat', ⟨⟩, hgranted⟩
      obtain rfl := Option.some.inj (hseat.symm.trans hseat')
      rwa [hworks] at hgranted
    · intro hgranted
      exact ⟨seat, now, action, hseat, rfl, hworks ▸ hgranted⟩
  -- From here on it is a question of what the action made of the screen's copy.
  obtain ⟨-, hlabel, hcopies⟩ := comesTo_of_calm hseat hworks hcalm
  have hlabel' : (seat.screen.act d.ledger now (.working verifier) action).screen.label
      = (d.move (.act i now action)).desk.ledger.vault.label :=
    hlabel.trans (hshown.label.trans (label_happen d (.moves (.act i now action))).symm)
  cases hcopies with
  | renewed yes balance pending =>
    rw [← hledger] at balance pending
    exact {
      label := hlabel'
      own := .of_renews (.inr (hsucceeds.mpr yes)) balance pending
      alone := fun _ => ⟨balance, pending⟩ }
  | kept no balance pending ledger =>
    refine {
      label := hlabel'
      own := hshown.own.of_not_renews ?_ balance pending
      alone := fun hothers => ?_ }
    · rintro (⟨_, ⟨⟩, _⟩ | hsuccess)
      exact no (hsucceeds.mp hsuccess)
    · have hbefore := hshown.alone fun x hx => hothers x (List.mem_append_left _ hx)
      rw [hledger, ledger, balance, pending]
      exact hbefore

theorem Jots.later {screen later : Screen} (hshown : Jots past i screen)
    (hinputs : later = screen.withInputs later) (x : Scene) : Jots (past ++ [x]) i later := by
  obtain ⟨y, hy, first, hput, hlast, hfirst⟩ := hshown
  rw [hfirst] at hinputs
  exact ⟨y, List.mem_append_left _ hy, first, hput, hlast, hinputs⟩

/-- **Screens that show what they should go on doing so**, whatever happens next. -/
theorem Faithful.happen (hshown : Faithful past d) (hcalm : ¬ Scene.Panics ⟨d, h⟩) :
    Faithful (past ++ [⟨d, h⟩]) (d.happen h).desk := by
  intro i seat hseat
  cases seated_happen hseat with
  | @kept _ _ old elsewhere before =>
    -- The screen is untouched, so what it shows has to stand against one more scene.
    have hlt : i < d.seats.length := (List.getElem?_eq_some_iff.mp before).1
    have hold := hshown i old before
    rcases aside_cases h i old with ⟨_, verifier, hworks, haside⟩ | ⟨hmock, haside⟩
    · rw [hworks] at hold
      rw [haside]
      exact Mirrors.of_elsewhere hold hlt elsewhere
    · rw [haside, hmock]
      rw [hmock] at hold
      exact Jots.later hold rfl _
  | opened verifier => exact mirrors_opens past d verifier
  | displayed screen => exact ⟨⟨d, .displays screen⟩, by simp, screen, rfl, rfl, rfl⟩
  | @acted _ now action old before =>
    have hold := hshown i old before
    rcases old with ⟨_ | _, screen⟩
    · exact Mirrors.act hold before rfl hcalm
    · exact Jots.later hold (screen.comesTo_act d.ledger now .mockUp action).mockUp.2 _

/-! ## Whole runs -/

theorem Faithful.run (hs : List Happening) (hshown : Faithful past d)
    (hcalm : ∀ x ∈ d.scenes hs, ¬ x.Panics) : Faithful (past ++ d.scenes hs) (d.after hs) := by
  -- On what happens, with the scenes before it growing at their end.
  induction hs generalizing past d with
  | nil => exact (List.append_nil past).symm ▸ hshown
  | cons h hs ih =>
    have hfirst := hshown.happen (hcalm ⟨d, h⟩ (by simp [scenes]))
    have hrest := ih hfirst fun x hx => hcalm x (by simp [scenes, hx])
    rwa [List.append_assoc] at hrest

theorem scenes_append (d : Desk) (made more : List Happening) :
    d.scenes (made ++ more) = d.scenes made ++ (d.after made).scenes more := by
  induction made generalizing d with
  | nil => rfl
  | cons h made ih => rw [List.cons_append, scenes, ih, scenes, List.cons_append]; rfl

/-- **Every screen shows the ledger as it last left it.** Whatever screens are opened over a ledger
and whatever is done on them and behind their backs, as long as nothing overflows: each thing that
happens touches and tells its own seat alone, and at every point a working screen shows the ledger
as it was after the screen's own last success, and a mock-up what it was put up with. -/
theorem screens_show_own_successes (l : Ledger) (hs : List Happening)
    (hcalm : ∀ x ∈ (ofPresenters l []).scenes hs, ¬ x.Panics) :
    (∀ x ∈ (ofPresenters l []).scenes hs, x.Confined) ∧ ∀ made, made <+: hs →
      Faithful ((ofPresenters l []).scenes made) ((ofPresenters l []).after made) := by
  refine ⟨fun x hx => confined_of_calm x (hcalm x hx), ?_⟩
  rintro made ⟨more, rfl⟩
  have hnobody : Faithful [] (ofPresenters l []) := fun i seat hseat => nomatch hseat
  refine hnobody.run made fun x hx => hcalm x ?_
  rw [scenes_append]
  exact List.mem_append_left _ hx

/-- Two screens and a mock-up. The first screen reserves, a call settles behind its back, and the
second screen is told there is nothing to settle: in the end the first still shows the withdrawal
and the second still shows the balance it was opened with. -/
theorem screens_show_own_successes_of_two :
    let l : Ledger := Ledger.ofVault { label := "v", balance := 100 }
    let put : Screen := { label := "w", balance := 1, pending := none }
    let hs : List Happening := [.opens Signing.acceptAny, .opens Signing.acceptAny, .displays put,
      .moves (.act 0 0 (.enter .amount " 5 ")), .moves (.act 0 0 (.enter .destination "d")),
      .moves (.act 0 0 (.enter .signature "s")), .moves (.act 0 1 .initiate),
      .moves (.call .settle), .moves (.act 1 2 .execute), .moves (.act 2 2 (.enter .amount "7")),
      .moves (.act 2 2 .execute)]
    let desk := (ofPresenters l []).after hs
    (∀ x ∈ (ofPresenters l []).scenes hs, x.Confined) ∧
      Faithful ((ofPresenters l []).scenes hs) desk ∧
      desk.seats.map (fun s => (s.screen.balance, s.screen.pending.isSome, s.screen.amountInput))
        = [(95, true, " 5 "), (100, false, ""), (1, false, "7")] ∧
      (desk.ledger.balance, desk.ledger.pending) = (95, none) := by
  intro l put hs desk
  have hcalm : ∀ x ∈ (ofPresenters l []).scenes hs, ¬ x.Panics := by decide
  obtain ⟨hconfined, hfaithful⟩ := screens_show_own_successes l hs hcalm
  exact ⟨hconfined, hfaithful hs List.prefix_rfl, by decide, by decide⟩

end RetirementVault.Desk
