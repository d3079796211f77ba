import Mathlib.Logic.Function.Basic
import RetirementVault.Proofs.Program.Mishap

/-!
# Programs side by side

Any number of processes work on one tree of files, each at its own program. What happens next is
that one of them has a call answered, or adds a piece of what it wants to add to a file, or ends, or
is killed. A lock has one holder; a process that holds it gives it back, or loses it by ending.
`play?` carries out what somebody chooses to happen, and `Reaches.play` says that it can happen.

The other half of the file is about one process among the others. It is not known what they will do
to the files between two of its calls, so what its program does is described against a protocol: a
stage it is in, the calls it makes there, and the stages an answer can lead to. `Follows` says that
a program keeps to a protocol whatever it is answered.
-/

set_option autoImplicit false

namespace RetirementVault

open Store

/-! ## Steps -/

/-- What a process has done, or what has been done to it. A piece that is written is not all that is
to be added to the file. -/
inductive Crowd.Deed (α : Type) where
  | call (c : SystemCall) (answer : c.Answer)
  | wrote (p : Path) (piece : List UInt8)
  | ended (result : α)
  | killed

namespace Crowd.Deed

variable {α : Type}

def takes (place : Location) : Deed α → Bool
  | .call (.lock p) (.ok ()) => p.place = place
  | _ => false

def replaces (place : Location) : Deed α → Bool
  | .call (.rename _ target) (.ok ()) => target.place = place
  | _ => false

end Crowd.Deed

/-- Processes on one tree of files. -/
structure Crowd (Who α : Type) where
  tree : Tree
  /-- Who holds the lock of the file at a location. -/
  held : Location → Option Who
  /-- What is left for a process to do; nothing if it has ended or was killed. -/
  doing : Who → Option (Program α)

namespace Crowd

variable {Who α : Type}

/-- Who has done something, in this order. -/
def doers (does : Deed α → Bool) (past : List (Who × Deed α)) : List Who :=
  (past.filter fun x => does x.2).map Prod.fst

abbrev takers (place : Location) (past : List (Who × Deed α)) : List Who :=
  doers (Deed.takes place) past

abbrev replacers (place : Location) (past : List (Who × Deed α)) : List Who :=
  doers (Deed.replaces place) past

section

variable {does : Deed α → Bool} {past : List (Who × Deed α)} {who other : Who} {deed : Deed α}

theorem doers_concat_of (h : does deed = true) :
    doers does (past ++ [(who, deed)]) = doers does past ++ [who] := by
  simp [doers, h]

theorem doers_concat_of_not (h : does deed = false) :
    doers does (past ++ [(who, deed)]) = doers does past := by
  simp [doers, h]

theorem mem_doers_concat_of_ne (hne : other ≠ who) :
    other ∈ doers does (past ++ [(who, deed)]) ↔ other ∈ doers does past := by
  cases h : does deed with
  | false => rw [doers_concat_of_not h]
  | true => simp [doers_concat_of h, hne]

end

variable [DecidableEq Who]

def start (tree : Tree) (programs : Who → Program α) : Crowd Who α where
  tree
  held _ := none
  doing who := some (programs who)

/-- Whether a call can be answered: a lock that somebody holds has to be waited for. -/
def Admits (m : Crowd Who α) : SystemCall → Prop
  | .lock p => m.held p.place = none
  | _ => True

def heldAfter (m : Crowd Who α) (who : Who) : SystemCall → Location → Option Who
  | .lock p => Function.update m.held p.place (some who)
  | .unlock p =>
    if m.held p.place = some who then Function.update m.held p.place none else m.held
  | _ => m.held

/-- The crowd without one of its processes and its locks. -/
def without (m : Crowd Who α) (who : Who) : Crowd Who α where
  tree := m.tree
  held place := if m.held place = some who then none else m.held place
  doing := Function.update m.doing who none

/-- One thing that happens in a crowd. -/
inductive Step (m : Crowd Who α) (who : Who) : Deed α → Crowd Who α → Prop
  /-- A call is answered as things are, at any time and with anything fed in. -/
  | answered {c : SystemCall} {next : c.Answer → Program α} {w : World}
    (doing : m.doing who = some (.call c next)) (tree : w.tree = m.tree) (admits : m.Admits c) :
    Step m who (.call c (w.answer c).1)
      { tree := (w.answer c).2.tree
        held := m.heldAfter who c
        doing := Function.update m.doing who (some (next (w.answer c).1)) }
  /-- A call fails for a reason of its own. -/
  | failed {c : SystemCall} {next : c.Answer → Program α} {answer : c.Answer} {why : FileFault}
    (doing : m.doing who = some (.call c next)) (fault : c.fault? answer = some why) :
    Step m who (.call c answer)
      { m with doing := Function.update m.doing who (some (next answer)) }
  /-- Of what is to be added to a file a first piece is added. -/
  | wrote {p : Path} {piece rest : List UInt8} {next : Except FileFault Unit → Program α}
    (doing : m.doing who = some (.call (.append p (piece ++ rest)) next))
    (fits : (m.tree.append p piece).1 = .ok ()) :
    Step m who (.wrote p piece)
      { tree := (m.tree.append p piece).2
        held := m.held
        doing := Function.update m.doing who (some (.call (.append p rest) next)) }
  | ended {result : α} (doing : m.doing who = some (.done result)) :
    Step m who (.ended result) (m.without who)
  | killed {p : Program α} (doing : m.doing who = some p) : Step m who .killed (m.without who)

/-- What has happened since a start, the last thing last, and the crowd there is now. -/
inductive Reaches (first : Crowd Who α) : List (Who × Deed α) → Crowd Who α → Prop
  | start : Reaches first [] first
  | step {past : List (Who × Deed α)} {m m' : Crowd Who α} {who : Who} {deed : Deed α}
    (before : Reaches first past m) (happens : Step m who deed m') :
    Reaches first (past ++ [(who, deed)]) m'

variable {first m m' : Crowd Who α} {past : List (Who × Deed α)} {who other : Who} {deed : Deed α}
  {place : Location}

theorem Step.alive (h : Step m who deed m') : ∃ p, m.doing who = some p := by
  cases h with
  | answered doing | failed doing | wrote doing | ended doing | killed doing => exact ⟨_, doing⟩

/-- Nobody's program goes on but that of the one who makes the step. -/
theorem Step.doing_other (h : Step m who deed m') (hne : other ≠ who) :
    m'.doing other = m.doing other := by
  cases h with
  | answered | failed | wrote | ended | killed => exact Function.update_of_ne hne _ _

/-- Whoever is told what a file holds is told what it holds. -/
theorem Step.tree_read {p : Path} {bytes : List UInt8}
    (h : Step m who (.call (.read p) (.ok bytes)) m') : m.tree.read p = .ok bytes := by
  generalize hdeed : Deed.call (SystemCall.read p) (Except.ok bytes) = deed at h
  cases h with
  | @answered c next w doing tree admits =>
    obtain ⟨rfl, hanswer⟩ := Deed.call.inj hdeed
    rw [← tree]
    exact (eq_of_heq hanswer).symm
  | @failed c next answer why doing fault =>
    obtain ⟨rfl, hanswer⟩ := Deed.call.inj hdeed
    rw [← eq_of_heq hanswer] at fault
    exact nomatch fault
  | wrote | ended | killed => exact nomatch hdeed

theorem Reaches.doing_of_ended {result : α} (h : Reaches first past m)
    (hended : (who, .ended result) ∈ past) : m.doing who = none := by
  induction h with
  | start => exact nomatch hended
  | @step past m m' actor deed before happens ih =>
    rcases List.mem_append.mp hended with hold | hnew
    · have hnone := ih hold
      have hne : who ≠ actor := by
        rintro rfl
        obtain ⟨p, halive⟩ := happens.alive
        exact nomatch hnone.symm.trans halive
      rw [happens.doing_other hne]
      exact hnone
    · obtain ⟨rfl, rfl⟩ := Prod.mk.inj (List.mem_singleton.mp hnew)
      cases happens with
      | ended => exact Function.update_self _ _ _

/-! ## Locks -/

theorem held_heldAfter {c : SystemCall} (h : m.heldAfter who c place = some other) :
    other = who ∨ m.held place = some other := by
  unfold heldAfter at h
  split at h
  · next p =>
    by_cases hplace : place = p.place
    · subst hplace
      rw [Function.update_self] at h
      exact .inl (Option.some.inj h).symm
    · rw [Function.update_of_ne hplace] at h
      exact .inr h
  · next p =>
    split at h
    · by_cases hplace : place = p.place
      · subst hplace
        rw [Function.update_self] at h
        exact nomatch h
      · rw [Function.update_of_ne hplace] at h
        exact .inr h
    · exact .inr h
  · exact .inr h

theorem held_without : (m.without who).held place = some other ↔
    m.held place = some other ∧ other ≠ who := by
  unfold without
  dsimp only
  split
  · next hmine =>
    rw [hmine]
    constructor
    · exact fun h => nomatch h
    · rintro ⟨hsame, hne⟩
      exact absurd (Option.some.inj hsame).symm hne
  · next hnot =>
    refine ⟨fun h => ⟨h, ?_⟩, And.left⟩
    rintro rfl
    exact hnot h

/-- **A lock is held by nobody who has ended or was killed.** -/
theorem Reaches.holder_alive (h : Reaches first past m) (hfirst : ∀ place, first.held place = none)
    (hheld : m.held place = some who) : ∃ p, m.doing who = some p := by
  induction h generalizing who with
  | start => exact nomatch (hfirst place).symm.trans hheld
  | @step past m m' actor deed before happens ih =>
    have hkept (hold : m.held place = some who) (hne : who ≠ actor) :
        ∃ p, m'.doing who = some p := by
      obtain ⟨p, hp⟩ := ih hold
      exact ⟨p, (happens.doing_other hne).trans hp⟩
    by_cases hactor : who = actor
    · subst hactor
      cases happens with
      | answered | failed | wrote => exact ⟨_, Function.update_self _ _ _⟩
      | ended | killed => exact absurd rfl (held_without.mp hheld).2
    · cases happens with
      | answered =>
        rcases held_heldAfter hheld with rfl | hold
        · exact absurd rfl hactor
        · exact hkept hold hactor
      | failed | wrote => exact hkept hheld hactor
      | ended | killed => exact hkept (held_without.mp hheld).1 hactor

/-- Somebody has something left to do and need not wait for a lock. -/
def GoesOn (m : Crowd Who α) (who : Who) : Prop :=
  ∃ p, m.doing who = some p ∧ ∀ c next, p = .call c next → m.Admits c

/-! ## Playing -/

instance (m : Crowd Who α) : (c : SystemCall) → Decidable (m.Admits c)
  | .lock p => inferInstanceAs (Decidable (m.held p.place = none))
  | .makeDirs _ | .openKept _ | .unlock _ | .isThere _ | .read _ | .create _ | .append _ _
  | .sync _ | .rename _ _ | .now | .random _ | .input | .print _ => .isTrue trivial

inductive Choice where
  /-- It makes its call or ends; the time is what the clock shows. -/
  | goOn (time : Nat)
  /-- Of what it is adding to a file so many bytes are added. -/
  | addFirst (count : Nat)
  | kill

/-- What happens by a choice; nothing where it cannot be made. -/
def happen? (m : Crowd Who α) (who : Who) (choice : Choice) : Option (Deed α × Crowd Who α) :=
  match choice, m.doing who with
  | .goOn _, some (.done result) => some (.ended result, m.without who)
  | .goOn time, some (.call c next) =>
    let w : World := { tree := m.tree, now := time }
    if m.Admits c then
      some (.call c (w.answer c).1,
        { tree := (w.answer c).2.tree
          held := m.heldAfter who c
          doing := Function.update m.doing who (some (next (w.answer c).1)) })
    else none
  | .addFirst count, some (.call (.append p bytes) next) =>
    match (m.tree.append p (bytes.take count)).1 with
    | .error _ => none
    | .ok () =>
      some (.wrote p (bytes.take count),
        { tree := (m.tree.append p (bytes.take count)).2
          held := m.held
          doing := Function.update m.doing who
            (some (.call (.append p (bytes.drop count)) next)) })
  | .kill, some _ => some (.killed, m.without who)
  | _, _ => none

def play? (m : Crowd Who α) : List (Who × Choice) → Option (List (Who × Deed α) × Crowd Who α)
  | [] => some ([], m)
  | (who, choice) :: later => do
    let (deed, after) ← m.happen? who choice
    let (deeds, last) ← after.play? later
    return ((who, deed) :: deeds, last)

theorem step_of_happen? {choice : Choice} (h : m.happen? who choice = some (deed, m')) :
    Step m who deed m' := by
  unfold happen? at h
  split at h
  · next hdoing =>
    obtain ⟨rfl, rfl⟩ := Prod.mk.inj (Option.some.inj h)
    exact .ended hdoing
  · next hdoing =>
    split at h
    · next hadmits =>
      obtain ⟨rfl, rfl⟩ := Prod.mk.inj (Option.some.inj h)
      exact .answered hdoing rfl hadmits
    · exact nomatch h
  · next count p bytes next hdoing =>
    split at h
    · exact nomatch h
    · next hfits =>
      obtain ⟨rfl, rfl⟩ := Prod.mk.inj (Option.some.inj h)
      refine .wrote ?_ hfits
      rw [List.take_append_drop]
      exact hdoing
  · next hdoing =>
    obtain ⟨rfl, rfl⟩ := Prod.mk.inj (Option.some.inj h)
    exact .killed hdoing
  · exact nomatch h

/-- **What is played can happen.** -/
theorem Reaches.play {choices : List (Who × Choice)} {more : List (Who × Deed α)}
    (h : Reaches first past m) (hplay : m.play? choices = some (more, m')) :
    Reaches first (past ++ more) m' := by
  induction choices generalizing m past more with
  | nil =>
    obtain ⟨rfl, rfl⟩ := Prod.mk.inj (Option.some.inj hplay)
    rwa [List.append_nil]
  | cons choice later ih =>
    obtain ⟨⟨deed, after⟩, hhappen, hlater⟩ := Option.bind_eq_some_iff.mp hplay
    obtain ⟨⟨deeds, last⟩, hdeeds, hresult⟩ := Option.bind_eq_some_iff.mp hlater
    obtain ⟨rfl, rfl⟩ := Prod.mk.inj (Option.some.inj hresult)
    have hreaches := ih (h.step (step_of_happen? hhappen)) hdeeds
    rwa [List.append_assoc] at hreaches

end Crowd

/-! ## Protocols -/

namespace Program

variable {α β G : Type}

/-- A protocol: which calls may be made at a stage, and to which stages an answer can lead. -/
structure Protocol (G : Type) where
  allows : G → SystemCall → Prop
  goes : G → (c : SystemCall) → c.Answer → G → Prop

/-- A program keeps to a protocol from a stage on, and something holds of its result and the stage
it ends at. -/
def Follows (π : Protocol G) (post : α → G → Prop) : Program α → G → Prop
  | .done a, g => post a g
  | .call c next, g =>
    π.allows g c ∧ ∀ answer g', π.goes g c answer g' → (next answer).Follows π post g'

variable {π : Protocol G} {g : G}

theorem Follows.mono {p : Program α} {post post' : α → G → Prop} (h : p.Follows π post g)
    (himp : ∀ a g', post a g' → post' a g') : p.Follows π post' g := by
  induction p generalizing g with
  | done a => exact himp a g h
  | call c next ih => exact ⟨h.1, fun answer g' hgoes => ih answer (h.2 answer g' hgoes)⟩

theorem Follows.bind {p : Program α} {f : α → Program β} {post : β → G → Prop}
    (h : p.Follows π (fun a g' => (f a).Follows π post g') g) : (p.bind f).Follows π post g := by
  induction p generalizing g with
  | done a => exact h
  | call c next ih => exact ⟨h.1, fun answer g' hgoes => ih answer (h.2 answer g' hgoes)⟩

end Program
end RetirementVault
