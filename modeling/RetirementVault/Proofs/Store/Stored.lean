import RetirementVault.Proofs.Store.Place

/-!
# The bytes at a location

`stored` is what a location holds, if it holds a file. It is the part of a tree that survives
everything done elsewhere: making directories never changes it, and a call on a file changes it at
that file's place only. A call that replaces a file says what it holds afterwards.
-/

set_option autoImplicit false

namespace RetirementVault.Store

/-- Making directories one after another keeps what making each of them keeps. Each is made where
some of the pieces lead that the path begins with. -/
theorem makeDirsInner_keeps {σ : Type} {makeDir : σ → List String → Except FileFault Unit × σ}
    (keeps : σ → Prop) {s : σ} (h : keeps s) {pieces : List String}
    (hmake : ∀ s front, front <+: pieces.reverse → keeps s → keeps (makeDir s front).2) :
    keeps (makeDirsInner makeDir s pieces).2 := by
  induction pieces with
  | nil => exact h
  | cons piece outer ih =>
    have hshorter : outer.reverse <+: (piece :: outer).reverse := by
      rw [List.reverse_cons]
      exact List.prefix_append _ _
    have houter := ih fun s front hfront => hmake s front (hfront.trans hshorter)
    have hhere (s : σ) := hmake s _ (List.prefix_refl _)
    simp only [makeDirsInner]
    split
    · split
      · next made hmade =>
        rw [hmade] at houter
        exact hhere made houter
      · next made hmade => rwa [hmade] at houter
    · next made hmade =>
      have hmake := hhere s h
      rwa [hmade] at hmake

namespace Tree

variable {t : Tree} {p : Path} {q : Location}

/-- The bytes of the file at a location. -/
def stored (t : Tree) (place : Location) : Option (List UInt8) :=
  match t.get? place with
  | some (.file content) => some content
  | some .directory | none => none

theorem stored_of_get? {content : List UInt8} (h : t.get? q = some (.file content)) :
    t.stored q = some content := by
  rw [stored, h]

theorem ne_top (h : t.get? q ≠ some .directory) : q ≠ [] := by
  rintro rfl
  exact h rfl

theorem stored_put_of_ne {place : Location} (h : q ≠ place) (e : Entry) :
    (t.put place e).stored q = t.stored q := by
  rw [stored, stored, get?_put_of_ne h]

theorem stored_put_file {content : List UInt8} (h : t.get? q ≠ some .directory) :
    (t.put q (.file content)).stored q = some content :=
  stored_of_get? (get?_put_self (ne_top h) t _)

theorem stored_erase_of_ne {place : Location} (h : q ≠ place) :
    (t.erase place).stored q = t.stored q := by
  rw [stored, stored, get?_erase_of_ne h]

/-! ## Looking -/

theorem get?_of_stored {content : List UInt8} (h : t.stored q = some content) :
    t.get? q = some (.file content) := by
  unfold stored at h
  split at h
  · next hget => rw [hget, Option.some.inj h]
  · exact absurd h (by simp)
  · exact absurd h (by simp)

/-- What is read at a path is what is stored at its place, if the path can be followed there. -/
theorem read_eq_ok_iff {content : List UInt8} :
    t.read p = .ok content ↔ t.Leads p ∧ t.stored p.place = some content := by
  constructor
  · intro h
    unfold read entry at h
    cases hlocate : t.locate p with
    | error why => simp [hlocate] at h
    | ok place =>
      refine ⟨leads_of_locate hlocate, ?_⟩
      rw [← locate_eq_place hlocate]
      cases hget : t.get? place with
      | none => simp [hlocate, hget] at h
      | some e =>
        cases e with
        | directory => simp [hlocate, hget] at h
        | file other =>
          have heq : other = content := by simpa [hlocate, hget] using h
          exact stored_of_get? (heq ▸ hget)
  · rintro ⟨hleads, hstored⟩
    have hlocate : t.locate p = .ok p.place := hleads
    simp [read, entry, hlocate, get?_of_stored hstored]

/-- Where a path can be followed and there is nothing, nothing is stored. -/
theorem stored_of_not_isThere (hleads : t.Leads p) (h : t.isThere p = false) :
    t.stored p.place = none := by
  cases hget : t.get? p.place with
  | none => rw [stored, hget]
  | some e => simp [isThere, entry, show t.locate p = .ok p.place from hleads, hget] at h

/-! ## Changing -/

/-- What every directory that is made keeps is kept by making them all. -/
theorem makeDirs_keeps (t : Tree) (keeps : Tree → Prop)
    (hmake : ∀ u pieces, keeps u → keeps (u.makeDir pieces).2) (h : keeps t) (p : Path) :
    keeps (t.makeDirs p).2 := by
  unfold makeDirs
  split
  · exact h
  · exact makeDirsInner_keeps keeps h fun u front _ => hmake u front

theorem stored_makeDir (t : Tree) (pieces : List String) (q : Location) :
    (t.makeDir pieces).2.stored q = t.stored q := by
  unfold makeDir
  split
  · rfl
  · next place _ =>
    split
    · rfl
    · rfl
    · next hget =>
      by_cases hq : q = place
      · -- There was nothing before and there is no file now.
        subst hq
        have htop : q ≠ [] := ne_top (by rw [hget]; simp)
        rw [stored, stored, get?_put_self htop, hget]
      · exact stored_put_of_ne hq _

/-- Making directories changes no file. -/
theorem stored_makeDirs (t : Tree) (p : Path) (q : Location) :
    (t.makeDirs p).2.stored q = t.stored q :=
  t.makeDirs_keeps (fun u => u.stored q = t.stored q)
    (fun u pieces hu => (stored_makeDir u pieces q).trans hu) rfl p

/-- A file that has been written to holds what was computed from what it held. -/
theorem writeWith_eq_ok {f : List UInt8 → List UInt8} (h : (t.writeWith p f).1 = .ok ()) :
    t.Leads p ∧ t.get? p.place ≠ some .directory ∧
      (t.writeWith p f).2 = t.put p.place (.file (f ((t.stored p.place).getD []))) := by
  unfold writeWith at h ⊢
  cases hlocate : t.locate p with
  | error why => simp [hlocate] at h
  | ok place =>
    refine ⟨leads_of_locate hlocate, ?_⟩
    rw [← locate_eq_place hlocate]
    cases hget : t.get? place with
    | none => simp [stored, hget]
    | some e =>
      cases e with
      | directory => simp [hlocate, hget] at h
      | file content => simp [stored, hget]

/-- A file that can be read can be written to. -/
theorem writeWith_of_read {content : List UInt8} (f : List UInt8 → List UInt8)
    (h : t.read p = .ok content) : (t.writeWith p f).1 = .ok () := by
  obtain ⟨hleads, hstored⟩ := read_eq_ok_iff.mp h
  have hlocate : t.locate p = .ok p.place := hleads
  simp [writeWith, hlocate, get?_of_stored hstored]

theorem writeWith_eq_error {f : List UInt8 → List UInt8} {why : FileFault}
    (h : (t.writeWith p f).1 = .error why) : (t.writeWith p f).2 = t := by
  unfold writeWith at h ⊢
  split at h
  · rfl
  · split at h
    · rfl
    · exact absurd h (by simp)
    · exact absurd h (by simp)

theorem stored_writeWith_of_ne (f : List UInt8 → List UInt8) (hq : q ≠ p.place) :
    (t.writeWith p f).2.stored q = t.stored q := by
  cases h : (t.writeWith p f).1 with
  | error why => rw [writeWith_eq_error h]
  | ok u => rw [(writeWith_eq_ok h).2.2, stored_put_of_ne hq]

/-- A file that has been written to holds what was computed, and one that was not there counts as
empty. -/
theorem stored_writeWith {f : List UInt8 → List UInt8} (h : (t.writeWith p f).1 = .ok ()) :
    (t.writeWith p f).2.stored p.place = some (f ((t.stored p.place).getD [])) := by
  obtain ⟨_, hfile, htree⟩ := writeWith_eq_ok h
  rw [htree, stored_put_file hfile]

theorem leads_writeWith {f : List UInt8 → List UInt8} (h : (t.writeWith p f).1 = .ok ()) :
    (t.writeWith p f).2.Leads p := by
  obtain ⟨hleads, hfile, htree⟩ := writeWith_eq_ok h
  rw [htree]
  exact leads_put_file hfile hleads

/-- Moving a file fails and changes nothing, or it puts the file where the new path leads. -/
theorem rename_cases (t : Tree) (source target : Path) :
    (∃ why, t.rename source target = (.error why, t)) ∨
    ∃ content, t.get? source.place = some (.file content) ∧
      t.get? target.place ≠ some .directory ∧
      t.rename source target =
        (.ok (), (t.erase source.place).put target.place (.file content)) := by
  unfold rename
  split
  · exact .inl ⟨_, rfl⟩
  · exact .inl ⟨_, rfl⟩
  · next old new hsource htarget =>
    split
    · exact .inl ⟨_, rfl⟩
    · split
      · exact .inl ⟨_, rfl⟩
      · exact .inl ⟨_, rfl⟩
      · next content hget =>
        split
        · exact .inl ⟨_, rfl⟩
        · split
          · exact .inl ⟨_, rfl⟩
          · next hfile =>
            rw [← locate_eq_place hsource, ← locate_eq_place htarget]
            exact .inr ⟨content, hget, hfile, rfl⟩

theorem stored_rename {source target : Path} (h : (t.rename source target).1 = .ok ()) :
    (t.rename source target).2.stored target.place = t.stored source.place := by
  rcases rename_cases t source target with ⟨_, hrename⟩ | ⟨content, hget, hfile, hrename⟩
  · rw [hrename] at h
    exact absurd h (by simp)
  · rw [hrename, stored_of_get? hget]
    exact stored_of_get? (get?_put_self (ne_top hfile) _ _)

/-! ## Directories stay -/

theorem keepsDirectories_makeDir (t : Tree) (pieces : List String) :
    t.KeepsDirectories (t.makeDir pieces).2 := by
  unfold makeDir
  split
  · exact fun _ h => h
  · split
    · exact fun _ h => h
    · exact fun _ h => h
    · next hget => exact keepsDirectories_put (by simp [hget]) _

theorem keepsDirectories_makeDirs (t : Tree) (p : Path) : t.KeepsDirectories (t.makeDirs p).2 :=
  t.makeDirs_keeps t.KeepsDirectories
    (fun u pieces hu => hu.trans (keepsDirectories_makeDir u pieces)) (fun _ h => h) p

theorem keepsDirectories_writeWith (t : Tree) (p : Path) (f : List UInt8 → List UInt8) :
    t.KeepsDirectories (t.writeWith p f).2 := by
  cases h : (t.writeWith p f).1 with
  | error why =>
    rw [writeWith_eq_error h]
    exact fun _ hplace => hplace
  | ok u =>
    obtain ⟨_, hfile, htree⟩ := writeWith_eq_ok h
    rw [htree]
    exact keepsDirectories_put hfile _

theorem keepsDirectories_rename (t : Tree) (source target : Path) :
    t.KeepsDirectories (t.rename source target).2 := by
  rcases rename_cases t source target with ⟨_, hrename⟩ | ⟨content, hget, hfile, hrename⟩
  · rw [hrename]
    exact fun _ h => h
  · rw [hrename]
    have herase := keepsDirectories_erase (t := t) (q := source.place) (by simp [hget])
    intro place hplace
    have hne : place ≠ target.place := by
      rintro rfl
      exact hfile hplace
    rw [get?_put_of_ne hne]
    exact herase place hplace

end Tree
end RetirementVault.Store
