import RetirementVault.Proofs.Command.Crowd

/-!
# Commands side by side are commands one after another

Any number of commands work on one state file at the same time, each of them may be killed between
any two of its calls, and any call may fail. `commands_are_serial` says that nobody can tell this
from commands that are carried out one after another: those that have reached their move over the
state file, in the order in which they have taken the lock.

The order is found on the way. Each move over the state file adds the command that makes it, which
has the lock and so has found what the ones before it have left; nothing else changes the file. What
is left behind by those that were killed, a lock's file or a half-written file beside, is in the
trees all this is about and makes no difference.
-/

set_option autoImplicit false

namespace RetirementVault.Command

open Store Job Crowd

variable {Who : Type}

/-! ## One after another -/

/-- A command that has put a ledger into the state file, with the time and the settings it went by
and whether its question for a state file had failed. -/
structure Commit (Who : Type) where
  who : Who
  now : Nat
  settings : Option Settings
  blind : Bool

/-- What a command went by is what it has been told. -/
structure Commit.IsTold (line : Who → Invocation) (past : History Who) (c : Commit Who) : Prop where
  clock : (line c.who).command.readsClock = true → (c.who, .call .now c.now) ∈ past
  defaults : (line c.who).settings = none → c.settings = some {}
  settings : ∀ label balance force p, (line c.who).command = .init label balance force →
    (line c.who).settings = some p →
      ∃ bytes, (c.who, .call (.read p) (.ok bytes)) ∈ past ∧
        c.settings = Settings.ofBytes? bytes
  blind : c.blind = true →
    ∃ why, (c.who, .call (.isThere (line c.who).state) (.error why)) ∈ past

/-- Carried out in memory over some bytes, a command goes through and leaves a ledger. A vault that
is opened without force finds no bytes, or has not been able to ask for them. -/
def Commit.Leaves (line : Who → Invocation) (c : Commit Who) (found : Option (List UInt8))
    (l : Ledger) : Prop :=
  inMemory? c.now c.settings (found.bind Ledger.ofBytes?) (line c.who).command = some l ∧
    ∀ label balance, (line c.who).command = .init label balance false →
      found = none ∨ c.blind = true

/-- Commands carried out one after another over a state file, from some bytes to others. -/
def InTurn (line : Who → Invocation) :
    Option (List UInt8) → List (Commit Who) → Option (List UInt8) → Prop
  | first, [], last => last = first
  | first, c :: later, last =>
    ∃ l, c.Leaves line first l ∧ InTurn line (some (stateBytes l)) later last

/-- What excuses a command that has ended early. -/
inductive Excused (line : Who → Invocation) (state : Path) (first : Option (List UInt8))
    (past : History Who) (commits : List (Commit Who)) (who : Who) : Prop
  | fault {c : SystemCall} {answer : c.Answer} (called : (who, .call c answer) ∈ past)
    (failed : (c.fault? answer).isSome = true)
  | present {label : Option String} {balance : Option Sats}
    (command : (line who).command = .init label balance false)
    (told : (who, .call (.isThere state) (.ok true)) ∈ past)
  | settings {p : Path} {bytes : List UInt8} {label : Option String} {balance : Option Sats}
    {force : Bool} (command : (line who).command = .init label balance force)
    (path : (line who).settings = some p) (read : (who, .call (.read p) (.ok bytes)) ∈ past)
    (unfit : Settings.ofBytes? bytes = none)
  | refused {made : List (Commit Who)} {found : Option (List UInt8)}
    (needs : (line who).command.NeedsLedger) (early : made <+: commits)
    (after : InTurn line first made found)
    (refused : ∀ now settings, (∀ n, (who, .call .now n) ∈ past → now = n) →
      inMemory? now settings (found.bind Ledger.ofBytes?) (line who).command = none)

/-- How a command has ended: it has made its move over the state file, though what it said
afterwards may not have been heard, or it has made none and is excused. -/
def Concluded (line : Who → Invocation) (state : Path) (first : Option (List UInt8))
    (past : History Who) (commits : List (Commit Who)) (who : Who) : Except Ending Unit → Prop
  | .ok () => who ∈ replacers state.place past
  | .error (.unheard _) => who ∈ replacers state.place past ∧
    ∃ text why, (who, .call (.print text) (.error why)) ∈ past
  | .error (.failed _) | .error (.overflow _) =>
    who ∉ replacers state.place past ∧ Excused line state first past commits who

/-- What has happened among commands is what happens when some of them are carried out one after
another. -/
structure Serial (line : Who → Invocation) (state : Path) (first : Option (List UInt8))
    (past : History Who) (now : Option (List UInt8)) (commits : List (Commit Who)) : Prop where
  /-- They are the ones that have reached their move over the state file, in this order. -/
  whos : commits.map Commit.who = replacers state.place past
  /-- It is the order in which they have taken the lock. -/
  ordered : (replacers state.place past).Sublist (takers (lockOf state).place past)
  /-- Nobody takes the lock twice, so nobody is carried out twice. -/
  once : (takers (lockOf state).place past).Nodup
  /-- They went by what they were told. -/
  told : ∀ c ∈ commits, c.IsTold line past
  /-- The state file holds what they leave when they are carried out one after another. -/
  sequence : InTurn line first commits now
  /-- Whoever reads the state file reads what those have left that had reached their move. -/
  reads : ∀ early who bytes late, past = early ++ (who, .call (.read state) (.ok bytes)) :: late →
    ∃ made, made <+: commits ∧ made.map Commit.who = replacers state.place early ∧
      InTurn line first made (some bytes)
  /-- Who has ended well has been carried out, and who has ended early has not and is excused. -/
  endings : ∀ who r, (who, .ended r) ∈ past → (line who).command ≠ .report →
    Concluded line state first past commits who r

section

variable {line : Who → Invocation} {state : Path} {first found now : Option (List UInt8)}
  {past past' : History Who} {commits commits' : List (Commit Who)} {c : Commit Who} {who : Who}

theorem InTurn.concat {l : Ledger} (h : InTurn line first commits found)
    (hleaves : c.Leaves line found l) :
    InTurn line first (commits ++ [c]) (some (stateBytes l)) := by
  induction commits generalizing first with
  | nil =>
    obtain rfl : found = first := h
    exact ⟨l, hleaves, rfl⟩
  | cons d later ih =>
    obtain ⟨between, hd, hlater⟩ := h
    exact ⟨between, hd, ih hlater⟩

theorem InTurn.complete (h : InTurn line first commits found)
    (hfirst : ∀ bytes, first = some bytes → ∃ l, Ledger.ofBytes? bytes = some l)
    {bytes : List UInt8} (hfound : found = some bytes) : ∃ l, Ledger.ofBytes? bytes = some l := by
  induction commits generalizing first with
  | nil => exact hfirst bytes ((show found = first from h).symm.trans hfound)
  | cons c later ih =>
    obtain ⟨l, _, hlater⟩ := h
    refine ih hlater ?_
    intro other hother
    rw [← Option.some.inj hother]
    exact ⟨l, ofBytes?_stateBytes l⟩

theorem Commit.IsTold.mono (h : c.IsTold line past) (hsub : past ⊆ past') :
    c.IsTold line past' where
  clock hreads := hsub (h.clock hreads)
  defaults := h.defaults
  settings label balance force p hcommand hp := by
    obtain ⟨bytes, hread, hsettings⟩ := h.settings label balance force p hcommand hp
    exact ⟨bytes, hsub hread, hsettings⟩
  blind hblind := (h.blind hblind).imp fun _ htold => hsub htold

theorem Excused.mono (h : Excused line state first past commits who) (hsub : past ⊆ past')
    (hcommits : commits <+: commits') : Excused line state first past' commits' who := by
  cases h with
  | fault called failed => exact .fault (hsub called) failed
  | present command told => exact .present command (hsub told)
  | settings command path read unfit => exact .settings command path (hsub read) unfit
  | refused needs early after refused =>
    refine .refused needs (early.trans hcommits) after ?_
    intro now settings hnow
    exact refused now settings fun n hn => hnow n (hsub hn)

theorem Concluded.mono {r : Except Ending Unit} (h : Concluded line state first past commits who r)
    (hsub : past ⊆ past') (hcommits : commits <+: commits')
    (hsame : who ∈ replacers state.place past' ↔ who ∈ replacers state.place past) :
    Concluded line state first past' commits' who r := by
  rcases r with (why | which | why) | u
  · exact ⟨fun hmem => h.1 (hsame.mp hmem), h.2.mono hsub hcommits⟩
  · exact ⟨fun hmem => h.1 (hsame.mp hmem), h.2.mono hsub hcommits⟩
  · obtain ⟨hmoved, text, fault, htold⟩ := h
    exact ⟨hsame.mpr hmoved, text, fault, hsub htold⟩
  · exact hsame.mpr h

/-! ## The order grows -/

theorem eq_or_of_concat {α : Type} {past early late : List α} {x y : α}
    (h : past ++ [y] = early ++ x :: late) :
    (early = past ∧ x = y) ∨ ∃ less, past = early ++ x :: less := by
  rcases List.eq_nil_or_concat late with rfl | ⟨less, z, rfl⟩
  · obtain ⟨rfl, hlast⟩ := List.append_inj' h rfl
    exact .inl ⟨rfl, (List.singleton_inj.mp hlast).symm⟩
  · have hparts : past ++ [y] = (early ++ x :: less) ++ [z] := by simpa using h
    exact .inr ⟨less, (List.append_inj' hparts rfl).1⟩

variable {deed : Deed (Except Ending Unit)}

theorem Serial.reads_concat (h : Serial line state first past now commits)
    (hcommits : commits <+: commits')
    (hread : ∀ bytes, deed = .call (.read state) (.ok bytes) → now = some bytes) :
    ∀ early reader bytes late,
      past ++ [(who, deed)] = early ++ (reader, .call (.read state) (.ok bytes)) :: late →
        ∃ made, made <+: commits' ∧ made.map Commit.who = replacers state.place early ∧
          InTurn line first made (some bytes) := by
  intro early reader bytes late hpast
  rcases eq_or_of_concat hpast with ⟨rfl, hnew⟩ | ⟨less, hold⟩
  · refine ⟨commits, hcommits, h.whos, ?_⟩
    rw [← hread bytes (Prod.mk.inj hnew).2.symm]
    exact h.sequence
  · obtain ⟨made, hmade, hwhos, hbytes⟩ := h.reads early reader bytes less hold
    exact ⟨made, hmade.trans hcommits, hwhos, hbytes⟩

theorem Serial.endings_concat (h : Serial line state first past now commits)
    (hcommits : commits <+: commits')
    (hsame : ∀ other r, (other, .ended r) ∈ past →
      (other ∈ replacers state.place (past ++ [(who, deed)]) ↔ other ∈ replacers state.place past))
    (hnew : ∀ r, deed = .ended r → (line who).command ≠ .report →
      Concluded line state first (past ++ [(who, deed)]) commits' who r) :
    ∀ other r, (other, .ended r) ∈ past ++ [(who, deed)] → (line other).command ≠ .report →
      Concluded line state first (past ++ [(who, deed)]) commits' other r := by
  intro other r hended hmutates
  rcases List.mem_append.mp hended with hold | hlast
  · exact (h.endings other r hold hmutates).mono (List.subset_append_left _ _) hcommits
      (hsame other r hold)
  · obtain ⟨rfl, hdeed⟩ := Prod.mk.inj (List.mem_singleton.mp hlast)
    exact hnew r hdeed.symm hmutates

/-- A step that moves nothing over the state file leaves the order as it is. -/
theorem Serial.still (h : Serial line state first past now commits)
    (hreplaces : deed.replaces state.place = false)
    (hfresh : deed.takes (lockOf state).place = true → who ∉ takers (lockOf state).place past)
    (hread : ∀ bytes, deed = .call (.read state) (.ok bytes) → now = some bytes)
    (hended : ∀ r, deed = .ended r → (line who).command ≠ .report →
      Concluded line state first past commits who r) :
    Serial line state first (past ++ [(who, deed)]) now commits := by
  have hsame : replacers state.place (past ++ [(who, deed)]) = replacers state.place past :=
    doers_concat_of_not hreplaces
  have htaken : takers (lockOf state).place (past ++ [(who, deed)])
        = takers (lockOf state).place past ∨
      who ∉ takers (lockOf state).place past ∧ takers (lockOf state).place (past ++ [(who, deed)])
        = takers (lockOf state).place past ++ [who] := by
    cases htakes : deed.takes (lockOf state).place with
    | false => exact .inl (doers_concat_of_not htakes)
    | true => exact .inr ⟨hfresh htakes, doers_concat_of htakes⟩
  have hpast : past ⊆ past ++ [(who, deed)] := List.subset_append_left _ _
  exact {
    whos := h.whos.trans hsame.symm
    ordered := by
      rw [hsame]
      rcases htaken with hnobody | ⟨-, hlater⟩
      · rw [hnobody]
        exact h.ordered
      · rw [hlater]
        exact h.ordered.trans (List.sublist_append_left _ _)
    once := by
      rcases htaken with hnobody | ⟨hnot, hlater⟩
      · rw [hnobody]
        exact h.once
      · rw [hlater]
        refine List.nodup_append.mpr ⟨h.once, List.pairwise_singleton _ who, ?_⟩
        rintro other hother _ hwho rfl
        obtain rfl := List.mem_singleton.mp hwho
        exact hnot hother
    told := fun c hc => (h.told c hc).mono hpast
    sequence := h.sequence
    reads := h.reads_concat (List.prefix_refl _) hread
    endings := by
      refine h.endings_concat (List.prefix_refl _) (fun other r _ => by rw [hsame]) ?_
      intro r hdeed hmutates
      exact (hended r hdeed hmutates).mono hpast (List.prefix_refl _) (by rw [hsame]) }

theorem sublist_of_sublist_concat {α : Type} {l m : List α} {a : α} (h : l.Sublist (m ++ [a]))
    (hnot : a ∉ l) : l.Sublist m := by
  obtain ⟨l₁, l₂, rfl, h₁, h₂⟩ := List.sublist_append_iff.mp h
  cases l₂ with
  | nil => simpa using h₁
  | cons b rest =>
    have hb : b ∈ [a] := h₂.subset (List.mem_cons_self ..)
    obtain rfl := List.mem_singleton.mp hb
    exact absurd (List.mem_append_right _ (List.mem_cons_self ..)) hnot

/-- A move over the state file by the last one to have taken the lock is the next in the order. -/
theorem Serial.moves {l : Ledger} (h : Serial line state first past now commits)
    (hwho : c.who = who) (htakes : deed.takes (lockOf state).place = false)
    (hreplaces : deed.replaces state.place = true)
    (hlast : (takers (lockOf state).place past).getLast? = some who)
    (hnot : who ∉ replacers state.place past)
    (halive : ∀ r, (who, .ended r) ∉ past) (htold : c.IsTold line past)
    (hleaves : c.Leaves line now l) :
    Serial line state first (past ++ [(who, deed)]) (some (stateBytes l)) (commits ++ [c]) := by
  have hmoved : replacers state.place (past ++ [(who, deed)])
      = replacers state.place past ++ [who] := doers_concat_of hreplaces
  have htaken : takers (lockOf state).place (past ++ [(who, deed)])
      = takers (lockOf state).place past := doers_concat_of_not htakes
  have hpast : past ⊆ past ++ [(who, deed)] := List.subset_append_left _ _
  have hcommits : commits <+: commits ++ [c] := List.prefix_append _ _
  obtain ⟨before, hbefore⟩ := List.getLast?_eq_some_iff.mp hlast
  exact {
    whos := by rw [List.map_append, h.whos, hmoved, List.map_singleton, hwho]
    ordered := by
      -- Who moves was the last to take the lock, so it comes after all that have moved before.
      have hordered := h.ordered
      rw [hbefore] at hordered
      rw [hmoved, htaken, hbefore]
      exact (sublist_of_sublist_concat hordered hnot).append (List.Sublist.refl _)
    once := by rw [htaken]; exact h.once
    told := by
      intro d hd
      rcases List.mem_append.mp hd with hold | hnew
      · exact (h.told d hold).mono hpast
      · obtain rfl := List.mem_singleton.mp hnew
        exact htold.mono hpast
    sequence := h.sequence.concat hleaves
    reads := by
      refine h.reads_concat hcommits ?_
      rintro bytes rfl
      exact nomatch hreplaces
    endings := by
      refine h.endings_concat hcommits ?_ ?_
      · -- Nobody moves anything after its end.
        intro other r hended
        refine mem_doers_concat_of_ne ?_
        rintro rfl
        exact halive r hended
      · rintro r rfl
        exact nomatch hreplaces }

end

/-! ## Between two steps

`Sound` is the invariant: what has happened so far is serial, every process that is left keeps to
its protocol from the stage it is at, and the holder of the lock was the last to take it. A step is
taken in two halves. `Sound.step_of` is about everybody but the one who makes it, `Sound.call`,
`Sound.wrote` and `Sound.gone` are about that one. -/

/-- How a process that is still going stands among the others, at its stage. -/
structure Stands (line : Who → Invocation) (state : Path) (first : Option (List UInt8))
    (past : History Who) (m : Commands Who) (commits : List (Commit Who)) (who : Who)
    (g : Progress) : Prop where
  fits : Fits state m who g.stage
  notes : g.notes.Accounted (line who) who past
  fresh : ∀ opened, g.stage = .waiting opened → who ∉ takers (lockOf state).place past
  committed : g.stage.IsCommitted ↔ who ∈ replacers state.place past
  /-- What it has found is what some of the others have left. -/
  saw : ∃ made found, made <+: commits ∧ InTurn line first made found ∧ g.stage.Saw found

structure Sound (line : Who → Invocation) (state : Path) (first : Option (List UInt8))
    (past : History Who) (m : Commands Who) (commits : List (Commit Who)) : Prop where
  serial : Serial line state first past (m.tree.stored state.place) commits
  goes : ∀ who p, m.doing who = some p → ∃ g,
    p.Follows (line who).protocol (line who).Ends g ∧ Stands line state first past m commits who g
  last : ∀ who, m.held (lockOf state).place = some who →
    (takers (lockOf state).place past).getLast? = some who

section

variable {line : Who → Invocation} {state : Path} {first : Option (List UInt8)}
  {past : History Who} {m m' : Commands Who} {commits commits' : List (Commit Who)}
  {who other : Who} {deed : Deed (Except Ending Unit)} {g : Progress}

theorem Stands.of_touches (h : Stands line state first past m commits other g)
    (htouches : Touches state who deed m m') (hkeeps : m.tree.KeepsDirectories m'.tree)
    (hne : other ≠ who) (hcommits : commits <+: commits') :
    Stands line state first (past ++ [(who, deed)]) m' commits' other g where
  fits := h.fits.of_touches htouches hkeeps hne
  notes := h.notes.mono (List.subset_append_left _ _)
  fresh opened hwaiting hmem := h.fresh opened hwaiting ((mem_doers_concat_of_ne hne).mp hmem)
  committed := h.committed.trans (mem_doers_concat_of_ne hne).symm
  saw := by
    obtain ⟨made, found, hmade, hfound, hsaw⟩ := h.saw
    exact ⟨made, found, hmade.trans hcommits, hfound, hsaw⟩

theorem Sound.last_concat (h : Sound line state first past m commits)
    (htouches : Touches state who deed m m') (hheld : m'.held (lockOf state).place = some other) :
    (takers (lockOf state).place (past ++ [(who, deed)])).getLast? = some other := by
  cases htouches with
  | nothing takes _ held =>
    rw [takers, doers_concat_of_not takes]
    exact h.last other (held.symm.trans hheld)
  | locks takes _ _ held =>
    rw [takers, doers_concat_of takes, List.getLast?_concat]
    exact held.symm.trans hheld
  | unlocks _ _ _ free => exact nomatch free.symm.trans hheld
  | scribbles takes _ mine held | moves takes _ mine held =>
    rw [takers, doers_concat_of_not takes]
    exact h.last other (mine.trans (held.symm.trans hheld))

/-- What the command that makes a move leaves, and what it went by. -/
theorem Stands.leaves {found : Option (List UInt8)} {written : List UInt8}
    (h : Stands line state first past m commits who g) (hstage : g.stage = .writing found written)
    (hmakes : (line who).Makes g.notes found written) :
    ∃ (c : Commit Who) (l : Ledger), c.who = who ∧ c.IsTold line past ∧
      c.Leaves line (m.tree.stored state.place) l ∧
      m.tree.stored (besideOf state).place = some (stateBytes l) := by
  obtain ⟨now, l, hclock, hmeaning, hforce, hbytes⟩ := hmakes
  have hfits := h.fits
  rw [hstage] at hfits
  obtain ⟨-, -, hfound, hwritten⟩ := hfits
  rw [hbytes] at hwritten
  refine ⟨⟨who, now, (line who).settingsGiven g.notes.config, g.notes.blind⟩, l, rfl, ?_, ?_,
    hwritten⟩
  · refine {
      clock := fun hreads => h.notes.clock now (hclock hreads)
      defaults := ?_
      settings := ?_
      blind := h.notes.blind }
    · intro hnone
      simp only [Invocation.settingsGiven]
      rw [hnone]
    · intro label balance force p hcommand hp
      have hgiven : (line who).settingsGiven g.notes.config
          = g.notes.config.bind Settings.ofBytes? := by
        rw [Invocation.settingsGiven, hp]
      rw [hcommand, inMemory?, hgiven] at hmeaning
      cases hconfig : g.notes.config with
      | none =>
        -- No vault is opened without settings.
        rw [hconfig] at hmeaning
        cases hmeaning
      | some bytes =>
        obtain ⟨p', hp', hread⟩ := h.notes.config bytes hconfig
        obtain rfl := Option.some.inj (hp'.symm.trans hp)
        refine ⟨bytes, hread, ?_⟩
        show (line who).settingsGiven (some bytes) = _
        rw [← hconfig, hgiven, hconfig]
        rfl
  · rw [hfound]
    exact ⟨hmeaning, hforce⟩

theorem Sound.step_of (h : Sound line state first past m commits)
    (hstands : Stands line state first past m commits who g)
    (hothers : ∀ other, other ≠ who → m'.doing other = m.doing other)
    (htouches : Touches state who deed m m') (hkeeps : m.tree.KeepsDirectories m'.tree)
    (hfresh : deed.takes (lockOf state).place = true → ∃ opened, g.stage = .waiting opened)
    (hread : ∀ bytes, deed = .call (.read state) (.ok bytes) →
      m.tree.stored state.place = some bytes)
    (halive : ∀ r, (who, .ended r) ∉ past)
    (hmakes : deed.replaces state.place = true → ¬ g.stage.IsCommitted ∧
      ∃ found written, g.stage = .writing found written ∧ (line who).Makes g.notes found written)
    (hended : ∀ r, deed = .ended r → (line who).command ≠ .report →
      Concluded line state first past commits who r)
    (hmine : ∀ commits', commits <+: commits' → ∀ p, m'.doing who = some p → ∃ g',
      p.Follows (line who).protocol (line who).Ends g' ∧
        Stands line state first (past ++ [(who, deed)]) m' commits' who g') :
    ∃ commits', Sound line state first (past ++ [(who, deed)]) m' commits' := by
  have hgoes {commits' : List (Commit Who)} (hcommits : commits <+: commits') :
      ∀ other p, m'.doing other = some p → ∃ g',
        p.Follows (line other).protocol (line other).Ends g' ∧
          Stands line state first (past ++ [(who, deed)]) m' commits' other g' := by
    intro other p hp
    by_cases hne : other = who
    · subst hne
      exact hmine commits' hcommits p hp
    · rw [hothers other hne] at hp
      obtain ⟨g', hfollows, hother⟩ := h.goes other p hp
      exact ⟨g', hfollows, hother.of_touches htouches hkeeps hne hcommits⟩
  -- Only a move adds a command to the order; it adds the one that has moved.
  cases hreplaces : deed.replaces state.place with
  | false =>
    refine ⟨commits, ?_, hgoes (List.prefix_refl _), fun other => h.last_concat htouches⟩
    rw [htouches.kept hreplaces]
    refine h.serial.still hreplaces ?_ hread hended
    intro htakes
    obtain ⟨opened, hwaiting⟩ := hfresh htakes
    exact hstands.fresh opened hwaiting
  | true =>
    obtain ⟨hnot, found, written, hstage, hmake⟩ := hmakes hreplaces
    obtain ⟨c, l, hwho, htold, hleaves, hwritten⟩ := hstands.leaves hstage hmake
    cases htouches with
    | nothing _ replaces | locks _ replaces | unlocks _ replaces | scribbles _ replaces =>
      exact nomatch hreplaces.symm.trans replaces
    | moves takes _ mine held moved =>
      refine ⟨commits ++ [c], ?_, hgoes (List.prefix_append _ _), fun other =>
        h.last_concat (.moves takes hreplaces mine held moved)⟩
      rw [moved, hwritten]
      exact h.serial.moves hwho takes hreplaces (h.last who mine)
        (fun hmem => hnot (hstands.committed.mpr hmem)) halive htold hleaves

/-- A call has been answered, in whatever way: the process goes on at the stage that leads to. -/
theorem Sound.call {c : SystemCall} {answer : c.Answer}
    {next : c.Answer → Program (Except Ending Unit)} (h : Sound line state first past m commits)
    (hline : (line who).state = state) (hdoing : m.doing who = some (.call c next))
    (hnext : m'.doing who = some (next answer))
    (hothers : ∀ other, other ≠ who → m'.doing other = m.doing other)
    (hread : ∀ bytes, (Deed.call c answer : Deed (Except Ending Unit)) =
      .call (.read state) (.ok bytes) → m.tree.stored state.place = some bytes)
    (halive : ∀ r, (who, .ended r) ∉ past)
    (hacts : ∀ s k, Fits state m who s → (line who).Allows ⟨s, k⟩ c →
      ∃ s', s.Goes state c answer s' ∧ Acts state who (.call c answer) m m' s') :
    ∃ commits', Sound line state first (past ++ [(who, .call c answer)]) m' commits' := by
  subst hline
  obtain ⟨⟨s, k⟩, ⟨hallows, hfollows⟩, hstands⟩ := h.goes who _ hdoing
  obtain ⟨s', hgoes, hacts⟩ := hacts s k hstands.fits hallows
  have hpasses := passes_of_goes hallows hgoes
  refine h.step_of hstands hothers hacts.touches hacts.keeps hpasses.takes hread halive ?_
    (fun r hr => nomatch hr) ?_
  · intro hreplaces
    obtain ⟨found, written, hstage, hmakes⟩ := hpasses.makes hreplaces
    refine ⟨?_, found, written, hstage, hmakes⟩
    rw [hstage]
    exact id
  intro commits' hcommits p hp
  obtain rfl : next answer = p := Option.some.inj (hnext.symm.trans hp)
  refine ⟨⟨s', (line who).noted k c answer⟩, hfollows answer _ ⟨hgoes, rfl⟩, ?_⟩
  exact {
    fits := hacts.fits
    notes := hstands.notes.noted hallows
    fresh := by
      rintro opened rfl
      obtain ⟨⟨before, hbefore⟩, htakes⟩ := hpasses.waits
      rw [takers, doers_concat_of_not htakes]
      exact hstands.fresh before hbefore
    committed := by
      refine hpasses.committed.trans ?_
      cases hreplaces : (Deed.call c answer : Deed (Except Ending Unit)).replaces
          (line who).state.place with
      | false =>
        rw [replacers, doers_concat_of_not hreplaces]
        simpa using hstands.committed
      | true =>
        rw [replacers, doers_concat_of hreplaces]
        simp
    saw := by
      obtain ⟨made, found, hmade, hfound, hsaw⟩ := hstands.saw
      cases htakes : (Deed.call c answer : Deed (Except Ending Unit)).takes
          (lockOf (line who).state).place with
      | false => exact ⟨made, found, hmade.trans hcommits, hfound, hpasses.saw htakes hsaw⟩
      | true =>
        -- Whoever takes the lock finds what all of those before it have left.
        cases hpasses with
        | locks _ replaces =>
          obtain ⟨-, -, hfound⟩ := hacts.fits
          refine ⟨commits, _, hcommits, h.serial.sequence, ?_⟩
          exact hfound.symm.trans (hacts.touches.kept replaces)
        | stays takes | opens takes | scribbles _ _ _ takes | moves takes | unlocks _ _ takes =>
          exact nomatch htakes.symm.trans takes }

theorem Sound.wrote {p : Path} {piece rest : List UInt8}
    {next : Except FileFault Unit → Program (Except Ending Unit)}
    (h : Sound line state first past m commits) (hline : (line who).state = state)
    (hdoing : m.doing who = some (.call (.append p (piece ++ rest)) next))
    (hfits : (m.tree.append p piece).1 = .ok ()) (halive : ∀ r, (who, .ended r) ∉ past)
    (htree : m'.tree = (m.tree.append p piece).2) (hheld : m'.held = m.held)
    (hnext : m'.doing who = some (.call (.append p rest) next))
    (hothers : ∀ other, other ≠ who → m'.doing other = m.doing other) :
    ∃ commits', Sound line state first (past ++ [(who, .wrote p piece)]) m' commits' := by
  subst hline
  obtain ⟨⟨s, k⟩, ⟨hallows, hfollows⟩, hstands⟩ := h.goes who _ hdoing
  have hmay : (line who).Allows ⟨s, k⟩ (.append p (piece ++ rest)) := hallows
  have hacts := acts_wrote rfl hstands.fits hmay hfits htree hheld
  refine h.step_of hstands hothers hacts.touches hacts.keeps (fun htakes => nomatch htakes)
    (fun bytes hread => nomatch hread) halive (fun hreplaces => nomatch hreplaces)
    (fun r hr => nomatch hr) ?_
  intro commits' hcommits q hq
  obtain rfl : .call (.append p rest) next = q := Option.some.inj (hnext.symm.trans hq)
  obtain ⟨rfl, found, written, rfl⟩ := hallows
  refine ⟨⟨.writing found (written ++ piece), k⟩, ⟨⟨rfl, _, _, rfl⟩, ?_⟩, ?_⟩
  · -- What is added in pieces is in the end the same as what is added at once.
    rintro answer g' ⟨hgoes, hnotes⟩
    refine hfollows answer g' ⟨?_, hnotes⟩
    cases answer with
    | error why => exact hgoes
    | ok u =>
      show g'.stage = .writing found (written ++ (piece ++ rest))
      rw [← List.append_assoc]
      exact hgoes
  · have hpast : past ⊆ past ++ [(who, Deed.wrote (besideOf (line who).state) piece)] :=
      List.subset_append_left _ _
    obtain ⟨made, f, hmade, hfound, hsaw⟩ := hstands.saw
    exact {
      fits := hacts.fits
      notes := hstands.notes.mono hpast
      fresh := fun opened hwaiting => nomatch hwaiting
      committed := by
        rw [replacers, doers_concat_of_not rfl]
        exact hstands.committed
      saw := ⟨made, f, hmade.trans hcommits, hfound, hsaw⟩ }

theorem Stands.excused (h : Stands line state first past m commits who g)
    (hline : (line who).state = state) (hblames : (line who).Blames g) :
    Excused line state first past commits who := by
  cases hblames with
  | fault met =>
    obtain ⟨c, answer, hcalled, hfailed⟩ := h.notes.met met
    exact .fault hcalled hfailed
  | present label balance command there => exact .present command (hline ▸ h.notes.present there)
  | settings label balance force command read unfit =>
    obtain ⟨p, hp, hread⟩ := h.notes.config _ read
    exact .settings command hp hread unfit
  | refused needs refused =>
    obtain ⟨made, found, hmade, hfound, hsaw⟩ := h.saw
    refine .refused needs hmade hfound ?_
    intro now settings hnow
    exact refused found hsaw now settings fun n hn => hnow n (h.notes.clock n hn)

theorem Stands.concluded {r : Except Ending Unit}
    (h : Stands line state first past m commits who g) (hline : (line who).state = state)
    (hends : (line who).Ends r g) (hmutates : (line who).command ≠ .report) :
    Concluded line state first past commits who r := by
  have hexcused (hnot : ¬ g.stage.IsCommitted) (hblames : (line who).Blames g) :
      who ∉ replacers state.place past ∧ Excused line state first past commits who :=
    ⟨fun hmem => hnot (h.committed.mpr hmem), h.excused hline hblames⟩
  rcases r with (why | which | why) | u
  · obtain ⟨hnot, hblames⟩ := hends hmutates
    exact hexcused hnot hblames
  · obtain ⟨hnot, hblames⟩ := hends hmutates
    exact hexcused hnot hblames
  · obtain ⟨hcommitted, hunheard⟩ := hends hmutates
    exact ⟨h.committed.mp hcommitted, h.notes.unheard hunheard⟩
  · exact h.committed.mp (hends hmutates)

/-- **It holds at the start**, when nobody has done anything. -/
theorem sound_start {tree : Tree}
    (hline : ∀ who, (line who).state = state ∧ (line who).command.IsAboutLedger) :
    Sound line state (tree.stored state.place) []
      (start tree fun who => (line who).job.run) [] where
  serial := {
    whos := rfl
    ordered := List.Sublist.refl _
    once := List.nodup_nil
    told := fun c hc => absurd hc (by simp)
    sequence := rfl
    reads := by
      intro early who bytes late hpast
      exact absurd hpast (by simp)
    endings := fun who r hended => absurd hended (by simp) }
  goes who p hp := by
    obtain rfl := Option.some.inj hp
    refine ⟨⟨.waiting false, {}⟩, Invocation.follows_job (hline who).2, ?_⟩
    exact {
      fits := ⟨(fun hheld => nomatch hheld), fun hopened => nomatch hopened⟩
      notes := {
        clock := fun n hn => nomatch hn
        config := fun bytes hbytes => nomatch hbytes
        met := fun hmet => nomatch hmet
        present := fun hpresent => nomatch hpresent
        blind := fun hblind => nomatch hblind
        unheard := fun hunheard => nomatch hunheard }
      fresh := fun opened _ hmem => absurd hmem (by simp [takers, doers])
      committed := by simp [Stage.IsCommitted, replacers, doers]
      saw := ⟨[], _, List.prefix_refl _, rfl, trivial⟩ }
  last who hheld := nomatch hheld

/-- Who holds the lock has taken it already, and need not wait for it. -/
theorem Sound.holder_goesOn {p : Program (Except Ending Unit)}
    (h : Sound line state first past m commits) (hdoing : m.doing who = some p)
    (hheld : m.held (lockOf state).place = some who) : m.GoesOn who := by
  refine ⟨p, hdoing, ?_⟩
  rintro c next rfl
  obtain ⟨⟨s, k⟩, ⟨hallows, -⟩, hstands⟩ := h.goes who _ hdoing
  have hfits := hstands.fits
  cases c with
  | lock q =>
    obtain ⟨-, hwaiting⟩ := hallows
    obtain rfl : s = .waiting true := hwaiting
    exact absurd hheld hfits.1
  | makeDirs | openKept | unlock | isThere | read | create | append | sync | rename | now | random
  | input | print => exact trivial

/-- A command goes on, or waits for somebody who does. -/
theorem Sound.goesOn {p : Program (Except Ending Unit)}
    (h : Sound line state first past m commits) (hline : (line who).state = state)
    (hholder : ∀ other, m.held (lockOf state).place = some other → ∃ q, m.doing other = some q)
    (hdoing : m.doing who = some p) :
    m.GoesOn who ∨ ∃ other, m.held (lockOf state).place = some other ∧ m.GoesOn other := by
  cases hheld : m.held (lockOf state).place with
  | some other =>
    obtain ⟨q, hq⟩ := hholder other hheld
    exact .inr ⟨other, rfl, h.holder_goesOn hq hheld⟩
  | none =>
    refine .inl ⟨p, hdoing, ?_⟩
    rintro c next rfl
    obtain ⟨g, ⟨hallows, -⟩, -⟩ := h.goes who _ hdoing
    cases c with
    | lock q =>
      obtain ⟨rfl, -⟩ := hallows
      show m.held (lockOf (line who).state).place = none
      rw [hline]
      exact hheld
    | makeDirs | openKept | unlock | isThere | read | create | append | sync | rename | now | random
    | input | print => exact trivial

variable [DecidableEq Who]

/-- A process is gone, because it has ended or because it was killed. -/
theorem Sound.gone {p : Program (Except Ending Unit)} (h : Sound line state first past m commits)
    (hline : (line who).state = state) (hdoing : m.doing who = some p)
    (halive : ∀ r, (who, .ended r) ∉ past)
    (hgone : deed = .killed ∨ ∃ r, deed = .ended r ∧ p = .done r) :
    ∃ commits', Sound line state first (past ++ [(who, deed)]) (m.without who) commits' := by
  obtain ⟨g, hfollows, hstands⟩ := h.goes who _ hdoing
  have htakes : deed.takes (lockOf state).place = false := by
    rcases hgone with rfl | ⟨r, rfl, -⟩
    · rfl
    · rfl
  have hreplaces : deed.replaces state.place = false := by
    rcases hgone with rfl | ⟨r, rfl, -⟩
    · rfl
    · rfl
  refine h.step_of hstands (fun other hne => Function.update_of_ne hne _ _)
    (touches_without m htakes hreplaces) (fun _ hplace => hplace)
    (fun h => nomatch htakes.symm.trans h) ?_ halive
    (fun h => nomatch hreplaces.symm.trans h) ?_ ?_
  · rintro bytes rfl
    rcases hgone with hkilled | ⟨r, hended, -⟩
    · exact nomatch hkilled
    · exact nomatch hended
  · rintro r rfl hmutates
    rcases hgone with hkilled | ⟨r', hended, rfl⟩
    · exact nomatch hkilled
    · obtain rfl := Deed.ended.inj hended
      exact hstands.concluded hline hfollows hmutates
  · intro commits' _ q hq
    have hnone : (m.without who).doing who = none := Function.update_self _ _ _
    exact nomatch hnone.symm.trans hq

/-- **Every step keeps it**, with one more command in the order where a move is made. -/
theorem Sound.step (h : Sound line state first past m commits) (hline : (line who).state = state)
    (halive : ∀ r, (who, .ended r) ∉ past) (hstep : Step m who deed m') :
    ∃ commits', Sound line state first (past ++ [(who, deed)]) m' commits' := by
  have hread : ∀ bytes, deed = .call (.read state) (.ok bytes) →
      m.tree.stored state.place = some bytes := by
    rintro bytes rfl
    exact (Tree.read_eq_ok_iff.mp hstep.tree_read).2
  cases hstep with
  | answered doing tree admits =>
    refine h.call hline doing (Function.update_self _ _ _)
      (fun other hne => Function.update_of_ne hne _ _) hread halive ?_
    intro s k hfits hallows
    exact acts_answered hline hfits hallows tree admits rfl rfl
  | failed doing fault =>
    refine h.call hline doing (Function.update_self _ _ _)
      (fun other hne => Function.update_of_ne hne _ _) hread halive ?_
    intro s k hfits hallows
    exact acts_failed hline hfits hallows fault rfl rfl
  | wrote doing fits =>
    exact h.wrote hline doing fits halive rfl rfl (Function.update_self _ _ _)
      fun other hne => Function.update_of_ne hne _ _
  | ended doing => exact h.gone hline doing halive (.inr ⟨_, rfl, rfl⟩)
  | killed doing => exact h.gone hline doing halive (.inl rfl)

theorem sound_of_reaches {tree : Tree}
    (hline : ∀ who, (line who).state = state ∧ (line who).command.IsAboutLedger)
    (h : Reaches (start tree fun who => (line who).job.run) past m) :
    ∃ commits, Sound line state (tree.stored state.place) past m commits := by
  induction h with
  | start => exact ⟨[], sound_start hline⟩
  | @step past m m' who deed before happens ih =>
    obtain ⟨commits, hsound⟩ := ih
    refine hsound.step (hline who).1 ?_ happens
    intro r hended
    obtain ⟨p, halive⟩ := happens.alive
    exact nomatch (before.doing_of_ended hended).symm.trans halive

end

/-! ## All of it -/

/-- What side by side is worth as much as one after another means for a state file. -/
structure Orderly (line : Who → Invocation) (state : Path) (tree : Tree) (past : History Who)
    (m : Commands Who) : Prop where
  serial : ∃ commits, Serial line state (tree.stored state.place) past
    (m.tree.stored state.place) commits
  /-- Whatever the state file holds is a whole ledger. -/
  whole : ∀ bytes, m.tree.stored state.place = some bytes → ∃ l, Ledger.ofBytes? bytes = some l
  /-- Whoever has read the state file has read a whole ledger. -/
  seen : ∀ who bytes, (who, .call (.read state) (.ok bytes)) ∈ past →
    ∃ l, Ledger.ofBytes? bytes = some l
  /-- Nobody who is gone holds a lock. -/
  locks : ∀ place who, m.held place = some who → ∃ p, m.doing who = some p
  /-- Everybody who is left goes on, or waits for somebody who does. -/
  goesOn : ∀ who p, m.doing who = some p →
    m.GoesOn who ∨ ∃ other, m.held (lockOf state).place = some other ∧ m.GoesOn other
  /-- What lies beside or as the file of the lock is no obstacle. -/
  beside : ∀ bytes, m.tree.read (besideOf state) = .ok bytes →
    (m.tree.create (besideOf state)).1 = .ok ()
  lockFile : ∀ bytes, m.tree.read (lockOf state) = .ok bytes →
    (m.tree.openKept (lockOf state)).1 = .ok ()

/-- **Commands side by side are commands one after another.** Any number of commands work on a state
file that is not there or holds a whole ledger at the start; whatever else there is, leftovers of
earlier ones included. However their calls come after one another, whichever of them fail, and
whoever is killed wherever: the state file is what those leave that have reached their move, carried
out one after another in the order of the lock, and so is what anybody reads of it. No command that
has ended well is missing there or there twice, and none stands in the way of the others when it is
gone. -/
theorem commands_are_serial [DecidableEq Who] {line : Who → Invocation} {state : Path} {tree : Tree}
    {past : History Who} {m : Commands Who}
    (hline : ∀ who, (line who).state = state ∧ (line who).command.IsAboutLedger)
    (hfirst : ∀ bytes, tree.stored state.place = some bytes → ∃ l, Ledger.ofBytes? bytes = some l)
    (h : Reaches (start tree fun who => (line who).job.run) past m) :
    Orderly line state tree past m := by
  obtain ⟨commits, hsound⟩ := sound_of_reaches hline h
  have halive (place : Location) (who : Who) (hheld : m.held place = some who) :
      ∃ p, m.doing who = some p := h.holder_alive (fun _ => rfl) hheld
  exact {
    serial := ⟨commits, hsound.serial⟩
    whole := fun bytes hbytes => hsound.serial.sequence.complete hfirst hbytes
    seen := by
      intro who bytes hread
      obtain ⟨early, late, hpast⟩ := List.append_of_mem hread
      obtain ⟨made, -, -, hmade⟩ := hsound.serial.reads early who bytes late hpast
      exact hmade.complete hfirst rfl
    locks := halive
    goesOn := fun who p hdoing => hsound.goesOn (hline who).1 (halive _) hdoing
    beside := fun bytes hread => Tree.writeWith_of_read _ hread
    lockFile := fun bytes hread => Tree.writeWith_of_read _ hread }

/-- One that opens the vault is killed when a part of its ledger is written, another one opens it,
a third reserves and is killed with the lock in its hands, and the last one looks. -/
theorem commands_are_serial_around_two_kills :
    let line (who : Fin 4) : Invocation :=
      { command := match who with
          | 0 | 1 => .init none (some 9) false
          | 2 => .initiate " 4 " "d" "s" false
          | 3 => .report
        state := "s", settings := none, verbose := false }
    ∃ past m, Reaches (start Tree.empty fun who => (line who).job.run) past m ∧
      takers (lockOf "s").place past = [0, 1, 2] ∧ replacers (Path.place "s") past = [1, 2] ∧
      m.tree.stored (besideOf "s").place = none ∧ Orderly line "s" Tree.empty past m := by
  intro line
  let choices : List (Fin 4 × Choice) :=
    List.replicate 4 (0, .goOn 0) ++ [(0, .addFirst 3), (0, .kill)] ++
      List.replicate 10 (1, .goOn 0) ++ List.replicate 8 (2, .goOn 7) ++ [(2, .kill), (3, .goOn 0)]
  have hplays : ((start Tree.empty fun who => (line who).job.run).play? choices).map
      (fun x => (takers (lockOf "s").place x.1, replacers (Path.place "s") x.1,
        x.2.tree.stored (besideOf "s").place)) = some ([0, 1, 2], [1, 2], none) := by
    decide +kernel
  obtain ⟨⟨past, m⟩, hplay, hseen⟩ := Option.map_eq_some_iff.mp hplays
  obtain ⟨htakers, hrest⟩ := Prod.mk.inj hseen
  obtain ⟨hreplacers, hbeside⟩ := Prod.mk.inj hrest
  have hreaches := Reaches.start.play hplay
  have hline (who : Fin 4) : (line who).state = "s" ∧ (line who).command.IsAboutLedger := by
    match who with
    | 0 | 1 | 2 | 3 => exact ⟨rfl, trivial⟩
  have hfirst : Tree.empty.stored (Path.place "s") = none := by decide +kernel
  refine ⟨past, m, hreaches, htakers, hreplacers, hbeside, commands_are_serial hline ?_ hreaches⟩
  intro bytes hbytes
  exact nomatch hfirst.symm.trans hbytes

end RetirementVault.Command
