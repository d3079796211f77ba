import RetirementVault.Proofs.Command.Conduct

/-!
# What a step of a command does among others

Between two steps the stage of every process is the one that the files and the lock show it at
(`Fits`). A step changes the lock, the state file and the file beside in one of five ways
(`Touches`). All but one of them need the lock, so whoever makes no step stays at its stage
(`Fits.of_touches`); and whatever a process is answered, also if a call fails or is cut short in the
middle of writing, leads to a stage at which it fits again (`acts_answered`, `acts_failed`,
`acts_wrote`).
-/

set_option autoImplicit false

namespace RetirementVault.Command

open Store Job Crowd

abbrev History (Who : Type) :=
  List (Who × Deed (Except Ending Unit))

abbrev Commands (Who : Type) :=
  Crowd Who (Except Ending Unit)

section

variable {Who : Type}

/-! ## What a process has been told -/

/-- What a process has noted is what it has been told. -/
structure Notes.Accounted (k : Notes) (i : Invocation) (who : Who) (past : History Who) : Prop where
  clock : ∀ n, k.clock = some n → (who, .call .now n) ∈ past
  config : ∀ bytes, k.config = some bytes →
    ∃ p, i.settings = some p ∧ (who, .call (.read p) (.ok bytes)) ∈ past
  met : k.met = true → ∃ c answer, (who, .call c answer) ∈ past ∧ (c.fault? answer).isSome = true
  present : k.present = true → (who, .call (.isThere i.state) (.ok true)) ∈ past
  blind : k.blind = true → ∃ why, (who, .call (.isThere i.state) (.error why)) ∈ past
  unheard : k.unheard = true → ∃ text why, (who, .call (.print text) (.error why)) ∈ past

namespace Notes.Accounted

variable {k : Notes} {i : Invocation} {who : Who} {past past' : History Who}

theorem mono (h : k.Accounted i who past) (hsub : past ⊆ past') : k.Accounted i who past' where
  clock n hn := hsub (h.clock n hn)
  config bytes hbytes := by
    obtain ⟨p, hp, hread⟩ := h.config bytes hbytes
    exact ⟨p, hp, hsub hread⟩
  met hmet := by
    obtain ⟨c, answer, hcall, hfault⟩ := h.met hmet
    exact ⟨c, answer, hsub hcall, hfault⟩
  present hpresent := hsub (h.present hpresent)
  blind hblind := (h.blind hblind).imp fun _ htold => hsub htold
  unheard hunheard := by
    obtain ⟨text, why, htold⟩ := h.unheard hunheard
    exact ⟨text, why, hsub htold⟩

theorem noted {s : Stage} {c : SystemCall} {answer : c.Answer} (h : k.Accounted i who past)
    (hallows : i.Allows ⟨s, k⟩ c) :
    (i.noted k c answer).Accounted i who (past ++ [(who, .call c answer)]) := by
  have hkept : k.Accounted i who (past ++ [(who, .call c answer)]) :=
    h.mono (List.subset_append_left _ _)
  have hnew : (who, Deed.call c answer) ∈ past ++ [(who, .call c answer)] := by simp
  have hmet (hfault : (c.fault? answer).isSome = true) :
      Notes.Accounted { k with met := true } i who (past ++ [(who, .call c answer)]) :=
    { hkept with met := fun _ => ⟨c, answer, hnew, hfault⟩ }
  cases c with
  | now =>
    refine { hkept with clock := ?_ }
    intro n hn
    obtain rfl : answer = n := Option.some.inj hn
    exact hnew
  | isThere p =>
    obtain rfl : p = i.state := hallows
    cases answer with
    | error why => exact { hkept with blind := fun _ => ⟨why, hnew⟩ }
    | ok there =>
      cases there with
      | false => exact hkept
      | true => exact { hkept with present := fun _ => hnew }
  | print text =>
    cases answer with
    | error why => exact { hkept with unheard := fun _ => ⟨text, why, hnew⟩ }
    | ok u => exact hkept
  | read p =>
    cases answer with
    | error why => exact hmet rfl
    | ok bytes =>
      show Notes.Accounted (if i.settings = some p then _ else k : Notes) _ _ _
      split
      · next hp =>
        refine { hkept with config := ?_ }
        intro other hother
        obtain rfl : bytes = other := Option.some.inj hother
        exact ⟨p, hp, hnew⟩
      · exact hkept
  | makeDirs | openKept | lock | create | append | sync | rename | input =>
    cases answer with
    | error why => exact hmet rfl
    | ok u => exact hkept
  | unlock | random => exact hkept

end Notes.Accounted

/-! ## What a call does to the stage -/

/-- What a call that a command makes can do to its stage, with what it means for the lock and the
state file. -/
inductive Passes (i : Invocation) (k : Notes) (deed : Deed (Except Ending Unit)) :
    Stage → Stage → Prop
  | stays {s : Stage} (takes : deed.takes (lockOf i.state).place = false)
    (replaces : deed.replaces i.state.place = false) : Passes i k deed s s
  | opens {opened : Bool} (takes : deed.takes (lockOf i.state).place = false)
    (replaces : deed.replaces i.state.place = false) :
    Passes i k deed (.waiting opened) (.waiting true)
  | locks {found : Option (List UInt8)} (takes : deed.takes (lockOf i.state).place = true)
    (replaces : deed.replaces i.state.place = false) :
    Passes i k deed (.waiting true) (.holding found)
  | scribbles {s s' : Stage} (inside : s.IsInside) (inside' : s'.IsInside)
    (saw : ∀ found, s.Saw found → s'.Saw found)
    (takes : deed.takes (lockOf i.state).place = false)
    (replaces : deed.replaces i.state.place = false) : Passes i k deed s s'
  | moves {found : Option (List UInt8)} {written : List UInt8}
    (takes : deed.takes (lockOf i.state).place = false)
    (replaces : deed.replaces i.state.place = true) (makes : i.Makes k found written) :
    Passes i k deed (.writing found written) (.replaced found)
  | unlocks {found : Option (List UInt8)} {s : Stage} {committed : Bool}
    (held : s.IsInside ∧ committed = false ∨ s = .replaced found ∧ committed = true)
    (saw : s.Saw found) (takes : deed.takes (lockOf i.state).place = false)
    (replaces : deed.replaces i.state.place = false) : Passes i k deed s (.left found committed)

section

variable {i : Invocation} {s s' : Stage} {k : Notes} {deed : Deed (Except Ending Unit)}

/-- **Every call that is allowed does one of these things.** -/
theorem passes_of_goes {c : SystemCall} {answer : c.Answer} (hallows : i.Allows ⟨s, k⟩ c)
    (hgoes : s.Goes i.state c answer s') : Passes i k (.call c answer) s s' := by
  cases c with
  | openKept p =>
    obtain ⟨-, opened, rfl⟩ := hallows
    cases answer with
    | error why =>
      obtain rfl := hgoes
      exact .stays rfl rfl
    | ok u =>
      obtain rfl := hgoes
      exact .opens rfl rfl
  | lock p =>
    obtain ⟨rfl, rfl⟩ := hallows
    cases answer with
    | error why =>
      obtain rfl := hgoes
      exact .stays rfl rfl
    | ok u =>
      obtain ⟨found, rfl⟩ := hgoes
      exact .locks (decide_eq_true rfl) rfl
  | unlock p =>
    obtain rfl := hgoes
    rcases hallows.2 with hinside | ⟨found, rfl⟩
    · cases s with
      | waiting | replaced | left => exact hinside.elim
      | holding | writing => exact .unlocks (.inl ⟨hinside, rfl⟩) rfl rfl rfl
    · exact .unlocks (.inr ⟨rfl, rfl⟩) rfl rfl rfl
  | create p =>
    obtain ⟨-, hinside⟩ := hallows
    cases s with
    | waiting | replaced | left => exact hinside.elim
    | holding | writing =>
      cases answer with
      | error | ok =>
        obtain rfl := hgoes
        exact .scribbles hinside trivial (fun _ h => h) rfl rfl
  | append p bytes =>
    obtain ⟨-, found, written, rfl⟩ := hallows
    cases answer with
    | error | ok =>
      obtain rfl := hgoes
      exact .scribbles trivial trivial (fun _ h => h) rfl rfl
  | rename source target =>
    obtain ⟨-, rfl, found, written, rfl, hmakes⟩ := hallows
    cases answer with
    | error why =>
      obtain rfl := hgoes
      exact .stays rfl rfl
    | ok u =>
      obtain rfl := hgoes
      exact .moves rfl (decide_eq_true rfl) hmakes
  | read p =>
    cases answer with
    | error why =>
      obtain rfl := hgoes
      exact .stays rfl rfl
    | ok bytes =>
      obtain ⟨rfl, -⟩ := hgoes
      exact .stays rfl rfl
  | isThere p =>
    cases answer with
    | error why =>
      obtain rfl := hgoes
      exact .stays rfl rfl
    | ok there =>
      obtain ⟨rfl, -⟩ := hgoes
      exact .stays rfl rfl
  | makeDirs | sync | now | random | input | print =>
    obtain rfl := hgoes
    exact .stays rfl rfl

theorem Stage.IsInside.not_committed (h : s.IsInside) : ¬ s.IsCommitted := by
  cases s with
  | waiting | replaced | left => exact h.elim
  | holding | writing => exact id

/-- Who waits after a call has waited before it and has not taken the lock by it. -/
theorem Passes.waits {opened : Bool} (h : Passes i k deed s (.waiting opened)) :
    (∃ before, s = .waiting before) ∧ deed.takes (lockOf i.state).place = false := by
  cases h with
  | stays takes | opens takes => exact ⟨⟨_, rfl⟩, takes⟩
  | scribbles _ inside' => exact inside'.elim

theorem Passes.takes (h : Passes i k deed s s')
    (htakes : deed.takes (lockOf i.state).place = true) : ∃ opened, s = .waiting opened := by
  cases h with
  | locks => exact ⟨_, rfl⟩
  | stays takes | opens takes | scribbles _ _ _ takes | moves takes | unlocks _ _ takes =>
    exact nomatch htakes.symm.trans takes

theorem Passes.makes (h : Passes i k deed s s') (hreplaces : deed.replaces i.state.place = true) :
    ∃ found written, s = .writing found written ∧ i.Makes k found written := by
  cases h with
  | moves _ _ makes => exact ⟨_, _, rfl, makes⟩
  | stays _ replaces | opens _ replaces | locks _ replaces | scribbles _ _ _ _ replaces
  | unlocks _ _ _ replaces => exact nomatch hreplaces.symm.trans replaces

/-- Who has committed after a call had done so before, or has made the move by it. -/
theorem Passes.committed (h : Passes i k deed s s') :
    s'.IsCommitted ↔ s.IsCommitted ∨ deed.replaces i.state.place = true := by
  cases h with
  | stays _ replaces => simp [replaces]
  | opens _ replaces | locks _ replaces => simp [replaces, Stage.IsCommitted]
  | scribbles inside inside' _ _ replaces =>
    simp [replaces, inside.not_committed, inside'.not_committed]
  | moves _ replaces => simp [replaces, Stage.IsCommitted]
  | @unlocks found _ _ held _ _ replaces =>
    rcases held with ⟨inside, rfl⟩ | ⟨rfl, rfl⟩
    · have hleft : ¬ (Stage.left found false).IsCommitted := id
      simp [replaces, inside.not_committed, hleft]
    · simp [replaces, Stage.IsCommitted]

/-- What has been found stays what has been found, unless the lock is taken only now. -/
theorem Passes.saw {found : Option (List UInt8)} (h : Passes i k deed s s')
    (htakes : deed.takes (lockOf i.state).place = false) (hsaw : s.Saw found) : s'.Saw found := by
  cases h with
  | stays | moves => exact hsaw
  | opens => exact trivial
  | locks takes => exact nomatch htakes.symm.trans takes
  | scribbles _ _ saw => exact saw found hsaw
  | @unlocks f _ _ held saw =>
    cases s with
    | waiting =>
      rcases held with ⟨hinside, _⟩ | ⟨hreplaced, _⟩
      · exact hinside.elim
      · exact nomatch hreplaced
    | holding | writing | replaced | left => exact saw.symm.trans hsaw

end

end

section

variable {Who : Type}

/-! ## What a stage says about the files and the lock -/

/-- A process is at the stage that the files and the lock show. -/
def Fits (state : Path) (m : Commands Who) (who : Who) : Stage → Prop
  | .waiting opened =>
    m.held (lockOf state).place ≠ some who ∧ (opened = true → m.tree.Leads (lockOf state))
  | .holding found =>
    m.held (lockOf state).place = some who ∧ m.tree.Leads state ∧
      m.tree.stored state.place = found
  | .writing found written =>
    m.held (lockOf state).place = some who ∧ m.tree.Leads state ∧
      m.tree.stored state.place = found ∧ m.tree.stored (besideOf state).place = some written
  | .replaced _ => m.held (lockOf state).place = some who
  | .left _ _ => m.held (lockOf state).place ≠ some who

/-- What a deed does to the lock, the state file and the file beside. -/
inductive Touches (state : Path) (who : Who) (deed : Deed (Except Ending Unit))
    (m m' : Commands Who) : Prop
  | nothing (takes : deed.takes (lockOf state).place = false)
    (replaces : deed.replaces state.place = false)
    (held : m'.held (lockOf state).place = m.held (lockOf state).place)
    (kept : m'.tree.stored state.place = m.tree.stored state.place)
    (beside : m'.tree.stored (besideOf state).place = m.tree.stored (besideOf state).place)
  | locks (takes : deed.takes (lockOf state).place = true)
    (replaces : deed.replaces state.place = false) (free : m.held (lockOf state).place = none)
    (held : m'.held (lockOf state).place = some who)
    (kept : m'.tree.stored state.place = m.tree.stored state.place)
  | unlocks (takes : deed.takes (lockOf state).place = false)
    (replaces : deed.replaces state.place = false) (mine : m.held (lockOf state).place = some who)
    (free : m'.held (lockOf state).place = none)
    (kept : m'.tree.stored state.place = m.tree.stored state.place)
  | scribbles (takes : deed.takes (lockOf state).place = false)
    (replaces : deed.replaces state.place = false) (mine : m.held (lockOf state).place = some who)
    (held : m'.held (lockOf state).place = some who)
    (kept : m'.tree.stored state.place = m.tree.stored state.place)
  | moves (takes : deed.takes (lockOf state).place = false)
    (replaces : deed.replaces state.place = true) (mine : m.held (lockOf state).place = some who)
    (held : m'.held (lockOf state).place = some who)
    (moved : m'.tree.stored state.place = m.tree.stored (besideOf state).place)

variable {state : Path} {m m' : Commands Who} {who other : Who}
  {deed : Deed (Except Ending Unit)} {s : Stage}

theorem Touches.kept (h : Touches state who deed m m')
    (hreplaces : deed.replaces state.place = false) :
    m'.tree.stored state.place = m.tree.stored state.place := by
  cases h with
  | nothing _ _ _ kept | locks _ _ _ _ kept | unlocks _ _ _ _ kept | scribbles _ _ _ _ kept =>
    exact kept
  | moves _ replaces => exact nomatch hreplaces.symm.trans replaces

/-- **Whoever makes no step stays at the stage it is at.** -/
theorem Fits.of_touches (h : Fits state m other s) (htouches : Touches state who deed m m')
    (hkeeps : m.tree.KeepsDirectories m'.tree) (hne : other ≠ who) : Fits state m' other s := by
  have hout (hnot : m.held (lockOf state).place ≠ some other) :
      m'.held (lockOf state).place ≠ some other := by
    have hwho : (some who : Option Who) ≠ some other := fun heq => hne (Option.some.inj heq).symm
    cases htouches with
    | nothing _ _ held => rwa [held]
    | unlocks _ _ _ free => rw [free]; exact fun heq => nomatch heq
    | locks _ _ _ held | scribbles _ _ _ held | moves _ _ _ held => rwa [held]
  -- Who holds the lock is out of reach of everybody else.
  have hin (hmine : m.held (lockOf state).place = some other) :
      m'.held (lockOf state).place = some other ∧
        m'.tree.stored state.place = m.tree.stored state.place ∧
        m'.tree.stored (besideOf state).place = m.tree.stored (besideOf state).place := by
    cases htouches with
    | nothing _ _ held kept beside => exact ⟨held.trans hmine, kept, beside⟩
    | locks _ _ free => exact nomatch free.symm.trans hmine
    | unlocks _ _ mine | scribbles _ _ mine | moves _ _ mine =>
      exact absurd (Option.some.inj (hmine.symm.trans mine)) hne
  cases s with
  | waiting opened => exact ⟨hout h.1, fun hopened => (h.2 hopened).mono hkeeps⟩
  | holding found =>
    obtain ⟨hmine, hleads, hfound⟩ := h
    obtain ⟨hheld, hkept, -⟩ := hin hmine
    exact ⟨hheld, hleads.mono hkeeps, hkept.trans hfound⟩
  | writing found written =>
    obtain ⟨hmine, hleads, hfound, hwritten⟩ := h
    obtain ⟨hheld, hkept, hbeside⟩ := hin hmine
    exact ⟨hheld, hleads.mono hkeeps, hkept.trans hfound, hbeside.trans hwritten⟩
  | replaced found => exact (hin h).1
  | left found committed => exact hout h

end

/-! ## One step -/

section

variable {Who : Type} {state : Path} {m m' : Commands Who} {who : Who}
  {deed : Deed (Except Ending Unit)} {s : Stage}

/-- A step of a process with what it means for it and for the others. -/
structure Acts (state : Path) (who : Who) (deed : Deed (Except Ending Unit)) (m m' : Commands Who)
    (s' : Stage) : Prop where
  touches : Touches state who deed m m'
  keeps : m.tree.KeepsDirectories m'.tree
  fits : Fits state m' who s'

theorem Fits.unchanged (h : Fits state m who s) (hkeeps : m.tree.KeepsDirectories m'.tree)
    (hheld : m'.held (lockOf state).place = m.held (lockOf state).place)
    (hkept : m'.tree.stored state.place = m.tree.stored state.place)
    (hbeside : m'.tree.stored (besideOf state).place = m.tree.stored (besideOf state).place) :
    Fits state m' who s := by
  cases s with
  | waiting opened => exact ⟨hheld ▸ h.1, fun hopened => (h.2 hopened).mono hkeeps⟩
  | holding found => exact ⟨hheld.trans h.1, h.2.1.mono hkeeps, hkept.trans h.2.2⟩
  | writing found written =>
    exact ⟨hheld.trans h.1, h.2.1.mono hkeeps, hkept.trans h.2.2.1, hbeside.trans h.2.2.2⟩
  | replaced found => exact hheld.trans h
  | left found committed =>
    show m'.held (lockOf state).place ≠ some who
    rw [hheld]
    exact h

theorem acts_nothing (h : Fits state m who s) (htakes : deed.takes (lockOf state).place = false)
    (hreplaces : deed.replaces state.place = false) (hkeeps : m.tree.KeepsDirectories m'.tree)
    (hheld : m'.held (lockOf state).place = m.held (lockOf state).place)
    (hkept : m'.tree.stored state.place = m.tree.stored state.place)
    (hbeside : m'.tree.stored (besideOf state).place = m.tree.stored (besideOf state).place) :
    Acts state who deed m m' s where
  touches := .nothing htakes hreplaces hheld hkept hbeside
  keeps := hkeeps
  fits := h.unchanged hkeeps hheld hkept hbeside

theorem state_ne_lock (state : Path) : state.place ≠ (lockOf state).place :=
  (state.place_sibling_ne ending_lock).symm

theorem state_ne_beside (state : Path) : state.place ≠ (besideOf state).place :=
  (state.place_sibling_ne ending_tmp).symm

theorem beside_ne_lock (state : Path) : (besideOf state).place ≠ (lockOf state).place :=
  fun heq => absurd (state.place_sibling_inj ending_tmp ending_lock heq) (by decide)

theorem keepsDirectories_of_eq {t u : Tree} (h : u = t) : t.KeepsDirectories u := by
  rw [h]
  exact fun _ hplace => hplace

theorem acts_still (h : Fits state m who s) (htakes : deed.takes (lockOf state).place = false)
    (hreplaces : deed.replaces state.place = false) (htree : m'.tree = m.tree)
    (hheld : m'.held = m.held) : Acts state who deed m m' s :=
  acts_nothing h htakes hreplaces (keepsDirectories_of_eq htree) (by rw [hheld]) (by rw [htree])
    (by rw [htree])

theorem acts_scribble {f : List UInt8 → List UInt8} {s' : Stage}
    (hmine : m.held (lockOf state).place = some who)
    (htakes : deed.takes (lockOf state).place = false)
    (hreplaces : deed.replaces state.place = false) (hheld : m'.held = m.held)
    (htree : m'.tree = (m.tree.writeWith (besideOf state) f).2)
    (hfits : m'.held (lockOf state).place = some who →
      m'.tree.stored state.place = m.tree.stored state.place →
      m.tree.KeepsDirectories m'.tree → Fits state m' who s') : Acts state who deed m m' s' := by
  have hkept : m'.tree.stored state.place = m.tree.stored state.place := by
    rw [htree]
    exact Tree.stored_writeWith_of_ne f (state_ne_beside state)
  have hkeeps : m.tree.KeepsDirectories m'.tree := by
    rw [htree]
    exact Tree.keepsDirectories_writeWith _ _ f
  have hheld' : m'.held (lockOf state).place = some who := by rw [hheld, hmine]
  exact {
    touches := .scribbles htakes hreplaces hmine hheld' hkept
    keeps := hkeeps
    fits := hfits hheld' hkept hkeeps }

theorem Fits.mine (h : Fits state m who s) (hinside : s.IsInside) :
    m.held (lockOf state).place = some who := by
  cases s with
  | waiting | replaced | left => exact hinside.elim
  | holding | writing => exact h.1

/-- Under the lock the stage says what is in the state file. -/
theorem Fits.saw (h : Fits state m who s) (hinside : s.IsInside) :
    m.tree.Leads state ∧ s.Saw (m.tree.stored state.place) := by
  cases s with
  | waiting | replaced | left => exact hinside.elim
  | holding found => exact ⟨h.2.1, h.2.2.symm⟩
  | writing found written => exact ⟨h.2.1, h.2.2.1.symm⟩

/-- A process that has failed at the file beside has only the lock. -/
theorem Fits.spoilt (h : Fits state m who s) (hinside : s.IsInside) :
    Fits state m who s.spoilt := by
  cases s with
  | waiting | replaced | left => exact hinside.elim
  | holding found => exact h
  | writing found written => exact ⟨h.1, h.2.1, h.2.2.1⟩

/-- **A call fails**: that leads to a stage too, and nothing has changed. -/
theorem acts_failed {i : Invocation} {k : Notes} {c : SystemCall} {answer : c.Answer}
    {why : FileFault} (hstate : i.state = state) (h : Fits state m who s)
    (hallows : i.Allows ⟨s, k⟩ c) (hfault : c.fault? answer = some why)
    (htree : m'.tree = m.tree) (hheld : m'.held = m.held) :
    ∃ s', s.Goes state c answer s' ∧ Acts state who (.call c answer) m m' s' := by
  subst hstate
  cases c with
  | create p =>
    cases answer with
    | ok u => exact nomatch hfault
    | error why =>
      exact ⟨s.spoilt, rfl, acts_still (h.spoilt hallows.2) rfl rfl htree hheld⟩
  | append p bytes =>
    cases answer with
    | ok u => exact nomatch hfault
    | error why =>
      obtain ⟨-, found, written, rfl⟩ := hallows
      exact ⟨_, rfl, acts_still (h.spoilt trivial) rfl rfl htree hheld⟩
  | makeDirs | openKept | lock | read | sync | rename | input | isThere | print =>
    cases answer with
    | ok a => exact nomatch hfault
    | error why => exact ⟨s, rfl, acts_still h rfl rfl htree hheld⟩
  | now | random | unlock => exact nomatch hfault

/-- Bytes have been added to the file beside, whether they are all that was to be added or not. -/
theorem acts_added {found : Option (List UInt8)} {written bytes : List UInt8}
    (h : Fits state m who (.writing found written))
    (hanswer : (m.tree.writeWith (besideOf state) (· ++ bytes)).1 = .ok ())
    (htree : m'.tree = (m.tree.writeWith (besideOf state) (· ++ bytes)).2)
    (hheld : m'.held = m.held) (htakes : deed.takes (lockOf state).place = false)
    (hreplaces : deed.replaces state.place = false) :
    Acts state who deed m m' (.writing found (written ++ bytes)) := by
  obtain ⟨hmine, hleads, hfound, hwritten⟩ := h
  have hadded : m'.tree.stored (besideOf state).place = some (written ++ bytes) := by
    have hstored := Tree.stored_writeWith hanswer
    rw [hwritten] at hstored
    rw [htree]
    exact hstored
  refine acts_scribble hmine htakes hreplaces hheld htree fun hheld' hkept hkeeps => ?_
  exact ⟨hheld', hleads.mono hkeeps, hkept.trans hfound, hadded⟩

/-- **A piece is added** to the file beside. -/
theorem acts_wrote {i : Invocation} {k : Notes} {p : Path} {piece rest : List UInt8}
    (hstate : i.state = state) (h : Fits state m who s)
    (hallows : i.Allows ⟨s, k⟩ (.append p (piece ++ rest)))
    (hfits : (m.tree.append p piece).1 = .ok ()) (htree : m'.tree = (m.tree.append p piece).2)
    (hheld : m'.held = m.held) : Acts state who (.wrote p piece) m m' (s.added piece) := by
  subst hstate
  obtain ⟨rfl, found, written, rfl⟩ := hallows
  exact acts_added h hfits htree hheld rfl rfl

/-! What the calls come to that are about the lock, the file beside or the state file. -/

theorem acts_openKept {opened : Bool} {answer : Except FileFault Unit}
    (h : Fits state m who (.waiting opened))
    (hcall : m.tree.openKept (lockOf state) = (answer, m'.tree)) (hheld : m'.held = m.held) :
    ∃ s', (Stage.waiting opened).Goes state (.openKept (lockOf state)) answer s' ∧
      Acts state who (.call (.openKept (lockOf state)) answer) m m' s' := by
  have hanswer : (m.tree.writeWith (lockOf state) id).1 = answer := congrArg Prod.fst hcall
  have htree : m'.tree = (m.tree.writeWith (lockOf state) id).2 := (congrArg Prod.snd hcall).symm
  cases answer with
  | error why =>
    have hsame : m'.tree = m.tree := htree.trans (Tree.writeWith_eq_error hanswer)
    exact ⟨.waiting opened, rfl, acts_still h rfl rfl hsame hheld⟩
  | ok u =>
    have hkept {q : Location} (hq : q ≠ (lockOf state).place) :
        m'.tree.stored q = m.tree.stored q := by
      rw [htree]
      exact Tree.stored_writeWith_of_ne id hq
    refine ⟨.waiting true, rfl, ?_⟩
    exact {
      touches := .nothing rfl rfl (by rw [hheld]) (hkept (state_ne_lock _))
        (hkept (beside_ne_lock _))
      keeps := by
        rw [htree]
        exact Tree.keepsDirectories_writeWith _ _ id
      fits := by
        refine ⟨by rw [hheld]; exact h.1, fun _ => ?_⟩
        rw [htree]
        exact Tree.leads_writeWith hanswer }

theorem acts_create {answer : Except FileFault Unit} (h : Fits state m who s)
    (hinside : s.IsInside) (hcall : m.tree.create (besideOf state) = (answer, m'.tree))
    (hheld : m'.held = m.held) :
    ∃ s', s.Goes state (.create (besideOf state)) answer s' ∧
      Acts state who (.call (.create (besideOf state)) answer) m m' s' := by
  have hmine := h.mine hinside
  obtain ⟨hleads, hsaw⟩ := h.saw hinside
  have hanswer : (m.tree.writeWith (besideOf state) fun _ => []).1 = answer :=
    congrArg Prod.fst hcall
  have htree : m'.tree = (m.tree.writeWith (besideOf state) fun _ => []).2 :=
    (congrArg Prod.snd hcall).symm
  cases answer with
  | error why =>
    refine ⟨s.spoilt, rfl, acts_scribble hmine rfl rfl hheld htree fun hheld' hkept hkeeps => ?_⟩
    cases s with
    | waiting | replaced | left => exact hinside.elim
    | holding | writing => exact ⟨hheld', hleads.mono hkeeps, hkept.trans hsaw.symm⟩
  | ok u =>
    have hwritten : m'.tree.stored (besideOf state).place = some [] := by
      rw [htree]
      exact Tree.stored_writeWith hanswer
    refine ⟨s.begun, rfl, acts_scribble hmine rfl rfl hheld htree fun hheld' hkept hkeeps => ?_⟩
    cases s with
    | waiting | replaced | left => exact hinside.elim
    | holding | writing =>
      exact ⟨hheld', hleads.mono hkeeps, hkept.trans hsaw.symm, hwritten⟩

theorem acts_append {found : Option (List UInt8)} {written bytes : List UInt8}
    {answer : Except FileFault Unit} (h : Fits state m who (.writing found written))
    (hcall : m.tree.append (besideOf state) bytes = (answer, m'.tree)) (hheld : m'.held = m.held) :
    ∃ s', (Stage.writing found written).Goes state (.append (besideOf state) bytes) answer s' ∧
      Acts state who (.call (.append (besideOf state) bytes) answer) m m' s' := by
  have hanswer : (m.tree.writeWith (besideOf state) (· ++ bytes)).1 = answer :=
    congrArg Prod.fst hcall
  have htree : m'.tree = (m.tree.writeWith (besideOf state) (· ++ bytes)).2 :=
    (congrArg Prod.snd hcall).symm
  cases answer with
  | error why =>
    obtain ⟨hmine, hleads, hfound, -⟩ := h
    refine ⟨.holding found, rfl, acts_scribble hmine rfl rfl hheld htree ?_⟩
    exact fun hheld' hkept hkeeps => ⟨hheld', hleads.mono hkeeps, hkept.trans hfound⟩
  | ok u =>
    exact ⟨_, rfl, acts_added h hanswer htree hheld rfl rfl⟩

theorem acts_rename {found : Option (List UInt8)} {written : List UInt8}
    {answer : Except FileFault Unit} (h : Fits state m who (.writing found written))
    (hcall : m.tree.rename (besideOf state) state = (answer, m'.tree)) (hheld : m'.held = m.held) :
    ∃ s', (Stage.writing found written).Goes state (.rename (besideOf state) state) answer s' ∧
      Acts state who (.call (.rename (besideOf state) state) answer) m m' s' := by
  have hanswer : (m.tree.rename (besideOf state) state).1 = answer := congrArg Prod.fst hcall
  have htree : m'.tree = (m.tree.rename (besideOf state) state).2 := (congrArg Prod.snd hcall).symm
  cases answer with
  | error why =>
    have hsame : m'.tree = m.tree := by
      rcases m.tree.rename_cases (besideOf state) state with ⟨_, hrename⟩ | ⟨_, _, _, hrename⟩
      · exact htree.trans (congrArg Prod.snd hrename)
      · exact nomatch hanswer.symm.trans (congrArg Prod.fst hrename)
    exact ⟨_, rfl, acts_still h rfl rfl hsame hheld⟩
  | ok u =>
    have hheld' : m'.held (lockOf state).place = some who := by
      rw [hheld]
      exact h.1
    refine ⟨.replaced found, rfl, ?_⟩
    exact {
      touches := by
        refine .moves rfl (decide_eq_true rfl) h.1 hheld' ?_
        rw [htree]
        exact Tree.stored_rename hanswer
      keeps := by
        rw [htree]
        exact Tree.keepsDirectories_rename _ _ _
      fits := hheld' }

variable [DecidableEq Who]

theorem acts_lock (h : Fits state m who (.waiting true)) (hfree : m.Admits (.lock (lockOf state)))
    (htree : m'.tree = m.tree) (hheld : m'.held = m.heldAfter who (.lock (lockOf state))) :
    Acts state who (.call (.lock (lockOf state)) (.ok ())) m m'
      (.holding (m.tree.stored state.place)) := by
  have hheld' : m'.held (lockOf state).place = some who := by
    rw [hheld]
    exact Function.update_self _ _ _
  exact {
    touches := .locks (decide_eq_true rfl) rfl hfree hheld' (by rw [htree])
    keeps := keepsDirectories_of_eq htree
    fits := by
      refine ⟨hheld', ?_, by rw [htree]⟩
      rw [htree]
      exact Tree.leads_of_sibling ending_lock (h.2 rfl) }

theorem acts_unlock (h : Fits state m who s) (hholds : s.IsInside ∨ ∃ found, s = .replaced found)
    (htree : m'.tree = m.tree) (hheld : m'.held = m.heldAfter who (.unlock (lockOf state))) :
    Acts state who (.call (.unlock (lockOf state)) ()) m m' s.unlocked := by
  have hmine : m.held (lockOf state).place = some who := by
    rcases hholds with hinside | ⟨found, rfl⟩
    · exact h.mine hinside
    · exact h
  have hfree : m'.held (lockOf state).place = none := by
    rw [hheld, heldAfter, if_pos hmine]
    exact Function.update_self _ _ _
  have hnot : m'.held (lockOf state).place ≠ some who := by
    rw [hfree]
    exact fun heq => nomatch heq
  exact {
    touches := .unlocks rfl rfl hmine hfree (by rw [htree])
    keeps := keepsDirectories_of_eq htree
    fits := by
      rcases hholds with hinside | ⟨found, rfl⟩
      · cases s with
        | waiting | replaced | left => exact hinside.elim
        | holding | writing => exact hnot
      · exact hnot }

/-- **A call is answered as things are**: the answer leads to a stage, and the process is there. -/
theorem acts_answered {i : Invocation} {k : Notes} {c : SystemCall} {w : World}
    (hstate : i.state = state) (h : Fits state m who s) (hallows : i.Allows ⟨s, k⟩ c)
    (htree : w.tree = m.tree) (hadmits : m.Admits c) (htree' : m'.tree = (w.answer c).2.tree)
    (hheld : m'.held = m.heldAfter who c) :
    ∃ s', s.Goes state c (w.answer c).1 s' ∧
      Acts state who (.call c (w.answer c).1) m m' s' := by
  subst hstate
  obtain ⟨tree, input, output, now, random⟩ := w
  obtain rfl : tree = m.tree := htree
  cases c with
  | openKept p =>
    obtain ⟨rfl, opened, rfl⟩ := hallows
    exact acts_openKept h (Prod.ext rfl htree'.symm) hheld
  | lock p =>
    obtain ⟨rfl, rfl⟩ := hallows
    exact ⟨_, ⟨_, rfl⟩, acts_lock h hadmits htree' hheld⟩
  | unlock p =>
    obtain ⟨rfl, hholds⟩ := hallows
    exact ⟨_, rfl, acts_unlock h hholds htree' hheld⟩
  | create p =>
    obtain ⟨rfl, hinside⟩ := hallows
    exact acts_create h hinside (Prod.ext rfl htree'.symm) hheld
  | append p bytes =>
    obtain ⟨rfl, found, written, rfl⟩ := hallows
    exact acts_append h (Prod.ext rfl htree'.symm) hheld
  | rename source target =>
    obtain ⟨rfl, rfl, found, written, rfl, -⟩ := hallows
    exact acts_rename h (Prod.ext rfl htree'.symm) hheld
  | makeDirs p =>
    have hsame (q : Location) : m'.tree.stored q = m.tree.stored q := by
      rw [htree']
      exact Tree.stored_makeDirs _ _ _
    refine ⟨s, rfl, acts_nothing h rfl rfl ?_ (by rw [hheld]; rfl) (hsame _) (hsame _)⟩
    rw [htree']
    exact Tree.keepsDirectories_makeDirs _ _
  | sync | now | random | input | print => exact ⟨s, rfl, acts_still h rfl rfl htree' hheld⟩
  | read p =>
    refine ⟨s, ?_, acts_still h rfl rfl htree' hheld⟩
    show s.Goes i.state (.read p) (m.tree.read p) s
    cases hanswer : m.tree.read p with
    | error why => rfl
    | ok bytes =>
      refine ⟨rfl, ?_⟩
      rintro rfl hinside
      rw [← (Tree.read_eq_ok_iff.mp hanswer).2]
      exact (h.saw hinside).2
  | isThere p =>
    refine ⟨s, ⟨rfl, ?_⟩, acts_still h rfl rfl htree' hheld⟩
    rintro rfl hinside hthere
    have hthere : m.tree.isThere i.state = false := hthere
    rw [← Tree.stored_of_not_isThere (h.saw hinside).1 hthere]
    exact (h.saw hinside).2

/-- **A process is gone**, and its lock is free. -/
theorem touches_without (m : Commands Who)
    (htakes : deed.takes (lockOf state).place = false)
    (hreplaces : deed.replaces state.place = false) :
    Touches state who deed m (m.without who) := by
  by_cases hmine : m.held (lockOf state).place = some who
  · exact .unlocks htakes hreplaces hmine (if_pos hmine) rfl
  · exact .nothing htakes hreplaces (if_neg hmine) rfl rfl

end

end RetirementVault.Command
