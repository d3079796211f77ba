import RetirementVault.Proofs.Store.Stored
import RetirementVault.Proofs.Store.Walk

/-!
# What becomes of a disk

What one call can make of a disk. A call that makes directories or an empty file adds what was
missing (`Gains`). A call that writes touches one file, the one its path leads to, and makes it if
it is missing (`WrittenAt`). A call that moves takes away one name and puts it over another
(`Moves`). All else on the disk is as it was: every name and what every file holds.

Directories and files that are added close no way, so where a path leads is the same before and
after all calls but the last kind. That is why calls of one kind can be put together
(`Gains.trans`, `WrittenAt.written`).
-/

set_option autoImplicit false

namespace RetirementVault.Store.Disk

variable {d e v : Disk} {p : Path} {place q r : Location}

/-! ## What is added -/

/-- Directories have been added at some locations and empty files at others, where nothing was. The
locations are told on the disk as it is afterwards. -/
structure Gains (directories files : Disk → Location → Prop) (d e : Disk) : Prop where
  here : e.here = d.here
  names : ∀ q, e.node? q = d.node? q ∨ d.node? q = none ∧
    (e.node? q = some .directory ∧ directories e q ∨
      ∃ n, e.node? q = some (.file n) ∧ d.Unused n ∧ e.content n = [] ∧ files e q)
  contents : ∀ q n, d.node? q = some (.file n) → e.content n = d.content n

/-- What is said of a location stays true while a disk only grows. -/
def Lasts (what : Disk → Location → Prop) : Prop :=
  ∀ d e q, d.Grows e → what d q → what e q

section

variable {directories directories' files files' : Disk → Location → Prop}

theorem gains_refl (d : Disk) : Gains directories files d d :=
  ⟨rfl, fun _ => .inl rfl, fun _ _ _ => rfl⟩

theorem Gains.grows (h : Gains directories files d e) : d.Grows e := by
  refine ⟨h.here, fun q node hq => ?_, fun q target hq => ?_⟩
  · rcases h.names q with hsame | ⟨hnone, -⟩
    · rw [hsame, hq]
    · exact absurd (hnone.symm.trans hq) (by simp)
  · rcases h.names q with hsame | ⟨-, ⟨hnew, -⟩ | ⟨n, hnew, -⟩⟩
    · rw [← hsame, hq]
    · exact absurd (hnew.symm.trans hq) (by simp)
    · exact absurd (hnew.symm.trans hq) (by simp)

theorem Gains.mono (h : Gains directories files d e)
    (hdirectories : ∀ q, directories e q → directories' e q)
    (hfiles : ∀ q, files e q → files' e q) : Gains directories' files' d e := by
  refine ⟨h.here, fun q => ?_, h.contents⟩
  rcases h.names q with hsame | ⟨hnone, ⟨hnew, hthere⟩ | ⟨n, hnew, hunused, hempty, hthere⟩⟩
  · exact .inl hsame
  · exact .inr ⟨hnone, .inl ⟨hnew, hdirectories q hthere⟩⟩
  · exact .inr ⟨hnone, .inr ⟨n, hnew, hunused, hempty, hfiles q hthere⟩⟩

/-- **What is added in two steps is added.** -/
theorem Gains.trans (hdirectories : Lasts directories) (hfiles : Lasts files)
    (h : Gains directories files d e) (h' : Gains directories files e v) :
    Gains directories files d v := by
  refine ⟨h'.here.trans h.here, fun q => ?_, fun q n hq => ?_⟩
  · rcases h'.names q with hsame | ⟨hnone, hnew⟩
    · -- What the first step has added there is what it was.
      rcases h.names q with hsame' | ⟨hnone, ⟨hnew, hthere⟩ | ⟨n, hnew, hunused, hempty, hthere⟩⟩
      · exact .inl (hsame.trans hsame')
      · exact .inr ⟨hnone, .inl ⟨hsame.trans hnew, hdirectories e v q h'.grows hthere⟩⟩
      · exact .inr ⟨hnone, .inr ⟨n, hsame.trans hnew, hunused, (h'.contents q n hnew).trans hempty,
          hfiles e v q h'.grows hthere⟩⟩
    · have hfirst : d.node? q = none := by
        rcases h.names q with hsame | ⟨hfirst, -⟩
        · rw [← hsame, hnone]
        · exact hfirst
      refine .inr ⟨hfirst, hnew.imp_right ?_⟩
      rintro ⟨n, hfile, hunused, hrest⟩
      exact ⟨n, hfile, h.grows.unused hunused, hrest⟩
  · rw [h'.contents q n (h.grows.keeps q _ hq), h.contents q n hq]

end

theorem lasts_leads (p : Path) : Lasts fun d q => d.Leads p q :=
  fun _ _ _ hgrows hleads => hleads.mono hgrows

theorem lasts_passes (p : Path) : Lasts fun d q => d.Passes p q :=
  fun _ _ _ hgrows hpasses => hpasses.mono hgrows

/-- One directory where nothing was. -/
theorem gains_put_directory (h : d.node? place = none) :
    Gains (fun _ q => q = place) (fun _ _ => False) d (d.put place .directory) := by
  have htop : place ≠ [] := ne_top_of_node? (d := d) (by simp [h])
  refine ⟨rfl, fun q => ?_, fun _ _ _ => rfl⟩
  by_cases hq : q = place
  · subst hq
    exact .inr ⟨h, .inl ⟨node?_put_self htop d _, rfl⟩⟩
  · exact .inl (node?_put_of_ne hq d _)

/-- The directories on the way of a path, and nothing else. -/
abbrev GainsOnWay (p : Path) : Disk → Disk → Prop :=
  Gains (fun d q => d.Passes p q) fun _ _ => False

theorem gains_makeDir {front : List String} (hfront : front <+: p.pieces) :
    GainsOnWay p d (makeDir (p.start d.here) d front).2 := by
  unfold makeDir
  split
  · exact gains_refl d
  · next place hwalk =>
    split
    · next hnone =>
      have hgains := gains_put_directory hnone
      refine hgains.mono (fun q hq => ?_) fun _ => id
      subst hq
      exact ⟨front, hfront, walk_mono hgains.grows hwalk⟩
    · split
      · exact gains_refl d
      · split <;> exact gains_refl d

/-- **Making directories** adds some on the way of the path, and nothing else. -/
theorem gains_makeDirs (d : Disk) (p : Path) : GainsOnWay p d (d.makeDirs p).2 := by
  unfold makeDirs
  split
  · exact gains_refl d
  · refine makeDirsInner_keeps (GainsOnWay p d) (gains_refl d) fun made front hfront hgains => ?_
    rw [List.reverse_reverse] at hfront
    rw [← hgains.here]
    exact hgains.trans (lasts_passes p) (fun _ _ _ _ => id) (gains_makeDir hfront)

/-! ## What is written -/

/-- At one location a file has been added, or the one that is there holds something else. -/
structure WrittenAt (r : Location) (d e : Disk) : Prop where
  here : e.here = d.here
  names : ∀ q, q ≠ r → e.node? q = d.node? q
  place : e.node? r = d.node? r ∨ d.node? r = none ∧ ∃ n, e.node? r = some (.file n) ∧ d.Unused n
  contents : ∀ q n, d.node? q = some (.file n) → d.node? r ≠ some (.file n) →
    e.content n = d.content n

/-- The file a path leads to has been written to, if it leads anywhere. -/
def Written (p : Path) (d e : Disk) : Prop :=
  e = d ∨ ∃ r, d.Leads p r ∧ WrittenAt r d e

theorem WrittenAt.node?_eq_or (h : WrittenAt r d e) (q : Location) : e.node? q = d.node? q ∨
    d.node? q = none ∧ ∃ n, e.node? q = some (.file n) ∧ d.Unused n := by
  by_cases hq : q = r
  · exact hq ▸ h.place
  · exact .inl (h.names q hq)

theorem WrittenAt.grows (h : WrittenAt r d e) : d.Grows e := by
  refine ⟨h.here, fun q node hq => ?_, fun q target hq => ?_⟩
  · rcases h.node?_eq_or q with hsame | ⟨hnone, -⟩
    · rw [hsame, hq]
    · exact absurd (hnone.symm.trans hq) (by simp)
  · rcases h.node?_eq_or q with hsame | ⟨-, n, hnew, -⟩
    · rw [← hsame, hq]
    · exact absurd (hnew.symm.trans hq) (by simp)

theorem WrittenAt.trans (h : WrittenAt r d e) (h' : WrittenAt r e v) : WrittenAt r d v := by
  refine ⟨h'.here.trans h.here, fun q hq => (h'.names q hq).trans (h.names q hq), ?_,
    fun q n hq hother => ?_⟩
  · rcases h'.place with hsame | ⟨hnone, n, hnew, hunused⟩
    · rw [hsame]
      exact h.place
    · have hfirst : d.node? r = none := by
        rcases h.place with hsame | ⟨hfirst, -⟩
        · rw [← hsame, hnone]
        · exact hfirst
      exact .inr ⟨hfirst, n, hnew, h.grows.unused hunused⟩
  · -- The file that is written to is no other one after the first step.
    have hother' : e.node? r ≠ some (.file n) := by
      rcases h.place with hsame | ⟨-, m, hnew, hunused⟩
      · rwa [hsame]
      · rw [hnew]
        rintro ⟨⟩
        exact hunused q hq
    rw [h'.contents q n (h.grows.keeps q _ hq) hother', h.contents q n hq hother]

/-- Writing twice at one path is writing there. -/
theorem WrittenAt.written (h : WrittenAt r d e) (hleads : d.Leads p r) (h' : Written p e v) :
    WrittenAt r d v := by
  rcases h' with rfl | ⟨r', hleads', hwritten⟩
  · exact h
  · obtain rfl : r = r' := Except.ok.inj ((hleads.mono h.grows).symm.trans hleads')
    exact h.trans hwritten

/-- What is written to a file, by its number. -/
theorem writtenAt_fill {n : Nat} (h : d.node? r = some (.file n)) (bytes : List UInt8) :
    WrittenAt r d (d.fill n bytes) := by
  refine ⟨rfl, fun _ _ => rfl, .inl rfl, fun q m hq hother => ?_⟩
  refine content_fill_of_ne ?_ d bytes
  rintro rfl
  exact hother h

theorem node?_putFile_self (h : d.node? r = none) (bytes : List UInt8) :
    (d.putFile r bytes).node? r = some (.file d.fresh) :=
  node?_put_self (ne_top_of_node? (d := d) (by simp [h])) d _

theorem writtenAt_putFile (h : d.node? r = none) (bytes : List UInt8) :
    WrittenAt r d (d.putFile r bytes) := by
  refine ⟨rfl, fun q hq => node?_put_of_ne hq d _,
    .inr ⟨h, d.fresh, node?_putFile_self h bytes, d.unused_fresh⟩, fun q n hq _ => ?_⟩
  exact content_fill_of_ne (Nat.ne_of_lt (lt_fresh hq)) (d.put r (.file d.fresh)) bytes

/-- **Writing** fails and changes nothing, or it touches the file the path leads to, which is then
there. -/
theorem writeWith_cases (d : Disk) (p : Path) (f : List UInt8 → List UInt8) :
    (∃ why, d.writeWith p f = (.error why, d)) ∨
    ∃ r n, d.Leads p r ∧ (d.writeWith p f).1 = .ok () ∧ WrittenAt r d (d.writeWith p f).2 ∧
      (d.writeWith p f).2.node? r = some (.file n) := by
  unfold writeWith
  split
  · exact .inl ⟨_, rfl⟩
  · next r hleads =>
    split
    · next n hfile => exact .inr ⟨r, n, hleads, rfl, writtenAt_fill hfile _, hfile⟩
    · exact .inl ⟨_, rfl⟩
    · exact .inl ⟨_, rfl⟩
    · next hnone =>
      exact .inr ⟨r, d.fresh, hleads, rfl, writtenAt_putFile hnone _, node?_putFile_self hnone _⟩

theorem written_writeWith (d : Disk) (p : Path) (f : List UInt8 → List UInt8) :
    Written p d (d.writeWith p f).2 := by
  rcases writeWith_cases d p f with ⟨why, hwrite⟩ | ⟨r, n, hleads, -, hwritten, -⟩
  · exact .inl (by rw [hwrite])
  · exact .inr ⟨r, hleads, hwritten⟩

theorem writeWith_eq_ok {f : List UInt8 → List UInt8} (h : (d.writeWith p f).1 = .ok ()) :
    ∃ r n, d.Leads p r ∧ WrittenAt r d (d.writeWith p f).2 ∧
      (d.writeWith p f).2.node? r = some (.file n) := by
  rcases writeWith_cases d p f with ⟨why, hwrite⟩ | ⟨r, n, hleads, -, hrest⟩
  · rw [hwrite] at h
    exact absurd h (by simp)
  · exact ⟨r, n, hleads, hrest⟩

/-- An empty file where a path leads, and nothing else. -/
abbrev GainsAtEnd (p : Path) : Disk → Disk → Prop :=
  Gains (fun _ _ => False) fun d q => d.Leads p q

/-- **Making sure that there is a file** adds an empty one where the path leads. -/
theorem gains_openKept (d : Disk) (p : Path) : GainsAtEnd p d (d.openKept p).2 := by
  unfold openKept writeWith
  split
  · exact gains_refl d
  · next r hleads =>
    split
    · next n hfile =>
      -- The file holds what it held.
      refine ⟨rfl, fun _ => .inl rfl, fun q m hq => ?_⟩
      by_cases hm : m = n
      · rw [hm, content_fill_self, id]
      · exact content_fill_of_ne hm d _
    · exact gains_refl d
    · exact gains_refl d
    · next hnone =>
      have hwritten := writtenAt_putFile hnone (id [])
      refine ⟨hwritten.here, fun q => ?_, fun q n hq => ?_⟩
      · by_cases hq : q = r
        · subst hq
          exact .inr ⟨hnone, .inr ⟨d.fresh, node?_putFile_self hnone _, d.unused_fresh,
            content_fill_self _ _ _, Leads.mono hleads hwritten.grows⟩⟩
        · exact .inl (hwritten.names q hq)
      · exact hwritten.contents q n hq (by simp [hnone])

/-- The name of a file that is there once the call has succeeded: the file's or a link's. -/
theorem named_of_openKept (h : (d.openKept p).1 = .ok ()) :
    ∃ l node, (d.openKept p).2.Names p l ∧ (d.openKept p).2.node? l = some node ∧
      node ≠ .directory := by
  obtain ⟨r, n, hleads, hwritten, hfile⟩ := writeWith_eq_ok h
  obtain ⟨l, hnames, rfl | ⟨target, hlink⟩⟩ := (hleads.mono hwritten.grows).names
  · exact ⟨l, .file n, hnames, hfile, by simp⟩
  · exact ⟨l, .link target, hnames, hlink, by simp⟩

/-! ## What is moved -/

/-- The name one path stands for has been put over that of another, or they were two names of one
file and both have stayed. -/
inductive Moves (source target : Path) (d : Disk) : Disk → Prop
  | same {old new : Location} {n : Nat} (hold : d.Names source old) (hnew : d.Names target new)
    (file : d.node? old = some (.file n)) (file' : d.node? new = some (.file n)) :
    Moves source target d d
  | across {old new : Location} {node : Node} (hold : d.Names source old)
    (hnew : d.Names target new) (found : d.node? old = some node) (name : node ≠ .directory)
    (free : d.node? new ≠ some .directory) : Moves source target d ((d.erase old).put new node)

/-- **Moving** fails and changes nothing, or it is that. -/
theorem rename_cases (d : Disk) (source target : Path) :
    (∃ why, d.rename source target = (.error why, d)) ∨
    (d.rename source target).1 = .ok () ∧ Moves source target d (d.rename source target).2 := by
  unfold rename
  split
  · exact .inl ⟨_, rfl⟩
  · exact .inl ⟨_, rfl⟩
  · next old new hsource htarget =>
    split
    · exact .inl ⟨_, rfl⟩
    · split
      · exact .inl ⟨_, rfl⟩
      · exact .inl ⟨_, rfl⟩
      · next node hname hfound =>
        split
        · exact .inl ⟨_, rfl⟩
        · split
          · exact .inl ⟨_, rfl⟩
          · next hfree =>
            have hmoves := Moves.across hsource htarget hfound hname hfree
            split
            · next n m hnew =>
              split
              · next hsame => exact .inr ⟨rfl, .same hsource htarget hfound (hsame ▸ hnew)⟩
              · exact .inr ⟨rfl, hmoves⟩
            · exact .inr ⟨rfl, hmoves⟩

/-- What has been moved from one location to another. -/
structure MovedBetween (old new : Location) (d e : Disk) : Prop where
  contents : ∀ n, e.content n = d.content n
  elsewhere : ∀ q, q ≠ old → q ≠ new → e.node? q = d.node? q
  moved : e.node? new = d.node? old
  gone : e.node? old = none ∨ e = d ∧ ∃ n, d.node? old = some (.file n) ∧
    d.node? new = some (.file n)

/-- **A move between two locations** leaves all else. -/
theorem Moves.between {source target : Path} (h : Moves source target d e)
    (hne : ∀ old new, d.Names source old → d.Names target new → old ≠ new) :
    ∃ old new, d.Names source old ∧ d.Names target new ∧ MovedBetween old new d e := by
  cases h with
  | @same old new n hsource htarget hfile hfile' =>
    exact ⟨old, new, hsource, htarget, fun _ => rfl, fun _ _ _ => rfl, hfile'.trans hfile.symm,
      .inr ⟨rfl, n, hfile, hfile'⟩⟩
  | @across old new node hsource htarget hfound hname hfree =>
    have hold : old ≠ [] := ne_top_of_node? (d := d) (by simpa [hfound] using hname)
    refine ⟨old, new, hsource, htarget, fun _ => rfl, fun q hq hq' => ?_, ?_, .inl ?_⟩
    · rw [node?_put_of_ne hq', node?_erase_of_ne hq]
    · rw [node?_put_self (ne_top_of_node? hfree), hfound]
    · rw [node?_put_of_ne (hne old new hsource htarget), node?_erase_self hold]

end RetirementVault.Store.Disk
