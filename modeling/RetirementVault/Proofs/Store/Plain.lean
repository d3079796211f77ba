import RetirementVault.Proofs.Store.Stored
import RetirementVault.Proofs.Store.Walk

/-!
# Disks without links

A tree is a disk on which nothing of what makes disks hard to follow is found: no links, one name
for each file, and the top for a working directory. `Shows` says that a disk is of this kind and
holds what a tree holds. Every call then has the same answer on both and leaves a disk that shows
the tree it leaves. So what is shown of trees is true of disks as far as they are trees.
-/

set_option autoImplicit false

namespace RetirementVault.Store.Disk

variable {d : Disk} {t : Tree} {p : Path} {place q r : Location}

/-- What a tree has in place of a node. -/
def entryOf (d : Disk) : Node → Entry
  | .file n => .file (d.content n)
  | .directory | .link _ => .directory

/-- A disk holds what a tree holds, and nothing that a tree cannot hold. -/
structure Shows (d : Disk) (t : Tree) : Prop where
  here : d.here = []
  entry : ∀ q, t.get? q = (d.node? q).map d.entryOf
  plain : ∀ q target, d.node? q ≠ some (.link target)
  single : ∀ q r n, d.node? q = some (.file n) → d.node? r = some (.file n) → q = r

/-! ## Trees are disks -/

theorem lookup_map_key {κ ι ε η : Type} [BEq κ] [LawfulBEq κ] [BEq ι] [LawfulBEq ι] {f : κ → ι}
    {g : κ → ε → η} {key : κ} {entries : List (κ × ε)}
    (hinj : ∀ x ∈ entries, f x.1 = f key → x.1 = key) :
    (entries.map fun x => (f x.1, g x.1 x.2)).lookup (f key) =
      (entries.lookup key).map (g key) := by
  induction entries with
  | nil => rfl
  | cons x rest ih =>
    obtain ⟨hx, hrest⟩ := List.forall_mem_cons.mp hinj
    rw [List.map_cons, List.lookup_cons, List.lookup_cons]
    by_cases hkey : key = x.1
    · subst hkey
      simp
    · have hf : f key ≠ f x.1 := fun heq => hkey (hx heq.symm).symm
      rw [beq_false_of_ne hkey, beq_false_of_ne hf]
      exact ih hrest

/-- The number of the file at a location, which is where it stands in the tree. -/
def numberIn (t : Tree) (place : Location) : Nat :=
  t.entries.findIdx (·.1 = place)

/-- A tree as a disk. -/
def ofTree (t : Tree) : Disk where
  names := t.entries.map fun x =>
    (x.1, match x.2 with
      | .file _ => .file (numberIn t x.1)
      | .directory => .directory)
  contents := t.entries.map fun x =>
    (numberIn t x.1, match x.2 with
      | .file content => content
      | .directory => [])

theorem numberIn_inj {x : Location × Entry} (hx : x ∈ t.entries) (place : Location)
    (heq : numberIn t x.1 = numberIn t place) : x.1 = place := by
  have hlt : numberIn t x.1 < t.entries.length :=
    List.findIdx_lt_length_of_exists ⟨x, hx, by simp⟩
  have hkey (key : Location) (hkey : numberIn t key < t.entries.length) :
      (t.entries[numberIn t key]).1 = key :=
    of_decide_eq_true (List.findIdx_getElem (w := hkey))
  have hsame := congrArg (t.entries[·]?) heq
  rw [List.getElem?_eq_getElem hlt, List.getElem?_eq_getElem (heq ▸ hlt)] at hsame
  rw [← hkey x.1 hlt, Option.some.inj hsame, hkey place (heq ▸ hlt)]

theorem node?_ofTree (t : Tree) (q : Location) : (ofTree t).node? q = (t.get? q).map fun
    | .file _ => .file (numberIn t q)
    | .directory => .directory := by
  rw [node?, Tree.get?]
  split
  · rfl
  · exact lookup_map_key (f := id) (g := fun key (e : Entry) =>
      match e with
      | .file _ => Node.file (numberIn t key)
      | .directory => .directory) fun _ _ => id

theorem content_ofTree {content : List UInt8} (h : t.get? q = some (.file content)) :
    (ofTree t).content (numberIn t q) = content := by
  have htop : q ≠ [] := Tree.ne_top (t := t) (by simp [h])
  rw [Tree.get?, if_neg htop] at h
  have hcontents := lookup_map_key (f := numberIn t) (g := fun _ (e : Entry) =>
    match e with
    | .file content => content
    | .directory => []) fun x hx => numberIn_inj hx q
  rw [h] at hcontents
  exact congrArg (·.getD []) hcontents

theorem numbered_of_file {n : Nat} (h : (ofTree t).node? q = some (.file n)) :
    n = numberIn t q ∧ ∃ x ∈ t.entries, x.1 = q := by
  have htop : q ≠ [] := ne_top_of_node? (d := ofTree t) (by simp [h])
  rw [node?_ofTree, Tree.get?, if_neg htop] at h
  cases hget : t.entries.lookup q with
  | none => simp [hget] at h
  | some e =>
    rw [hget] at h
    cases e with
    | directory => simp at h
    | file content =>
      obtain ⟨front, rest, hentries, -⟩ := List.lookup_eq_some_iff.mp hget
      have hx : (q, Entry.file content) ∈ t.entries := by simp [hentries]
      exact ⟨by simpa using h.symm, _, hx, rfl⟩

/-- **Every tree is shown by a disk.** -/
theorem shows_ofTree (t : Tree) : (ofTree t).Shows t := by
  refine ⟨rfl, fun q => ?_, fun q target => ?_, fun q r n hq hr => ?_⟩
  · rw [node?_ofTree]
    cases hget : t.get? q with
    | none => rfl
    | some e =>
      cases e with
      | directory => rfl
      | file content =>
        rw [Option.map_some, Option.map_some, entryOf, content_ofTree hget]
  · rw [node?_ofTree]
    cases t.get? q with
    | none => simp
    | some e => cases e <;> simp
  · obtain ⟨rfl, x, hx, rfl⟩ := numbered_of_file hq
    exact numberIn_inj hx r (numbered_of_file hr).1

/-! ## Paths -/

theorem Shows.get?_eq_directory_iff (h : d.Shows t) :
    t.get? q = some .directory ↔ d.node? q = some .directory := by
  rw [h.entry q]
  cases hnode : d.node? q with
  | none => simp
  | some node =>
    cases node with
    | file n => simp [entryOf]
    | directory => simp [entryOf]
    | link target => exact absurd hnode (h.plain q target)

theorem Shows.get?_of_file {n : Nat} (h : d.Shows t) (hq : d.node? q = some (.file n)) :
    t.get? q = some (.file (d.content n)) := by
  rw [h.entry q, hq]
  rfl

theorem Shows.get?_of_none (h : d.Shows t) (hq : d.node? q = none) : t.get? q = none := by
  rw [h.entry q, hq]
  rfl

theorem Shows.walkWith_eq {through : Bool}
    {behind : Location → List String → Except FileFault Location} (h : d.Shows t)
    (pieces : List String) :
    d.walkWith through behind place pieces = pieces.foldlM t.follow place := by
  induction pieces generalizing place with
  | nil =>
    rw [walkWith]
    split
    · next target hlink => exact absurd hlink (h.plain place target)
    · rfl
    · rfl
    · rfl
  | cons piece rest ih =>
    rw [walkWith, List.foldlM_cons, Tree.follow]
    split
    · next hnone => rw [h.get?_of_none hnone]; rfl
    · next n hfile => rw [h.get?_of_file hfile]; rfl
    · next target hlink => exact absurd hlink (h.plain place target)
    · next hdirectory =>
      rw [h.get?_eq_directory_iff.mpr hdirectory]
      dsimp only
      cases Path.step place piece with
      | error why => rfl
      | ok next => exact ih

theorem Shows.walk_eq {through : Bool} (h : d.Shows t) (links : Nat) (pieces : List String) :
    d.walk through links place pieces = pieces.foldlM t.follow place := by
  cases links with
  | zero => exact h.walkWith_eq pieces
  | succ links => exact h.walkWith_eq pieces

theorem Shows.start_eq (h : d.Shows t) (p : Path) : p.start d.here = [] := by
  rw [Path.start, h.here]
  exact ite_self _

/-- **Paths lead to the same locations.** -/
theorem Shows.locate_eq (h : d.Shows t) (through : Bool) (p : Path) :
    d.locate through p = t.locate p := by
  have hwalk : d.walk through maxLinks (p.start d.here) p.pieces = p.pieces.foldlM t.follow [] := by
    rw [h.start_eq p]
    exact h.walk_eq maxLinks p.pieces
  unfold locate Tree.locate
  cases p.flaw? with
  | none => exact hwalk
  | some why => rfl

theorem Shows.read_eq (h : d.Shows t) (p : Path) : d.read p = t.read p := by
  rw [read, Tree.read, Tree.entry, h.locate_eq]
  cases t.locate p with
  | error why => rfl
  | ok place =>
    dsimp only
    split
    · next n hfile => rw [h.get?_of_file hfile]
    · next hdirectory => rw [h.get?_eq_directory_iff.mpr hdirectory]
    · next target hlink => exact absurd hlink (h.plain place target)
    · next hnone => rw [h.get?_of_none hnone]

theorem Shows.isThere_eq (h : d.Shows t) (p : Path) : d.isThere p = t.isThere p := by
  rw [isThere, Tree.isThere, Tree.entry, h.locate_eq]
  cases t.locate p with
  | error why => rfl
  | ok place =>
    dsimp only
    rw [h.entry place]
    cases d.node? place <;> rfl

/-! ## Changes -/

/-- What a disk shows is told by what the tree has at each location. -/
theorem Shows.congr {u : Tree} (h : d.Shows t) (hget : ∀ q, u.get? q = t.get? q) : d.Shows u :=
  ⟨h.here, fun q => (hget q).trans (h.entry q), h.plain, h.single⟩

/-- A directory, or a file that has no other name, is put on a disk as it is into a tree. -/
theorem Shows.put {node : Node} (h : d.Shows t) (hfree : d.node? r ≠ some .directory)
    (hplain : ∀ target, node ≠ .link target) (hnew : ∀ n, node = .file n → d.Unused n) :
    (d.put r node).Shows (t.put r (d.entryOf node)) := by
  have htop : r ≠ [] := ne_top_of_node? hfree
  refine ⟨h.here, fun q => ?_, fun q target => ?_, fun q s n hq hs => ?_⟩
  · by_cases hqr : q = r
    · rw [hqr, node?_put_self htop, Tree.get?_put_self htop]
      rfl
    · rw [node?_put_of_ne hqr, Tree.get?_put_of_ne hqr, h.entry q]
      rfl
  · by_cases hqr : q = r
    · rw [hqr, node?_put_self htop]
      exact fun heq => hplain target (Option.some.inj heq)
    · rw [node?_put_of_ne hqr]
      exact h.plain q target
  · -- The number of a new name is no other name's.
    have hother {a b : Location} (ha : a = r) (hb : b ≠ r)
        (hfile : (d.put r node).node? a = some (.file n))
        (hfile' : (d.put r node).node? b = some (.file n)) : False := by
      rw [ha, node?_put_self htop] at hfile
      rw [node?_put_of_ne hb] at hfile'
      exact hnew n (Option.some.inj hfile) b hfile'
    by_cases hqr : q = r
    · by_cases hsr : s = r
      · rw [hqr, hsr]
      · exact (hother hqr hsr hq hs).elim
    · by_cases hsr : s = r
      · exact (hother hsr hqr hs hq).elim
      · rw [node?_put_of_ne hqr] at hq
        rw [node?_put_of_ne hsr] at hs
        exact h.single q s n hq hs

/-- Filling a file changes what is shown where the file is, which is one location only. -/
theorem Shows.fill {n : Nat} (h : d.Shows t) (hfile : d.node? r = some (.file n))
    (bytes : List UInt8) : (d.fill n bytes).Shows (t.put r (.file bytes)) := by
  have htop : r ≠ [] := ne_top_of_node? (d := d) (by simp [hfile])
  refine ⟨h.here, fun q => ?_, h.plain, h.single⟩
  by_cases hq : q = r
  · rw [hq, node?_fill, hfile, Tree.get?_put_self htop, Option.map_some, entryOf,
      content_fill_self]
  · rw [Tree.get?_put_of_ne hq, node?_fill, h.entry q]
    refine Option.map_congr fun node hnode => ?_
    cases node with
    | directory => rfl
    | link target => rfl
    | file m =>
      have hm : m ≠ n := by
        rintro rfl
        exact hq (h.single q r m hnode hfile)
      rw [entryOf, entryOf, content_fill_of_ne hm]

theorem Shows.putFile (h : d.Shows t) (hnone : d.node? r = none) (bytes : List UInt8) :
    (d.putFile r bytes).Shows (t.put r (.file bytes)) := by
  have hfree : d.node? r ≠ some .directory := by simp [hnone]
  have htop : r ≠ [] := ne_top_of_node? hfree
  have hput : (d.put r (.file d.fresh)).Shows (t.put r (d.entryOf (.file d.fresh))) := by
    refine h.put hfree (by simp) ?_
    rintro n ⟨⟩
    exact d.unused_fresh
  refine (hput.fill (node?_put_self htop d _) bytes).congr fun q => ?_
  by_cases hq : q = r
  · rw [hq, Tree.get?_put_self htop, Tree.get?_put_self htop]
  · rw [Tree.get?_put_of_ne hq, Tree.get?_put_of_ne hq, Tree.get?_put_of_ne hq]

theorem Shows.erase (h : d.Shows t) (hq : q ≠ []) : (d.erase q).Shows (t.erase q) := by
  have hsub {s : Location} {node : Node} (hs : (d.erase q).node? s = some node) :
      d.node? s = some node := by
    by_cases hsq : s = q
    · rw [hsq, node?_erase_self hq] at hs
      cases hs
    · rwa [node?_erase_of_ne hsq] at hs
  refine ⟨h.here, fun s => ?_, fun s target hs => h.plain s target (hsub hs),
    fun s r n hs hr => h.single s r n (hsub hs) (hsub hr)⟩
  by_cases hsq : s = q
  · rw [hsq, node?_erase_self hq, Tree.get?_erase_self hq]
    rfl
  · rw [node?_erase_of_ne hsq, Tree.get?_erase_of_ne hsq, h.entry s]
    rfl

/-! ## Calls -/

/-- A change has the same answer on a disk and in a tree, and the disk still shows the tree. -/
def SameChange (onDisk : Except FileFault Unit × Disk) (inTree : Except FileFault Unit × Tree) :
    Prop :=
  onDisk.1 = inTree.1 ∧ onDisk.2.Shows inTree.2

theorem Shows.writeWith (h : d.Shows t) (p : Path) (f : List UInt8 → List UInt8) :
    SameChange (d.writeWith p f) (t.writeWith p f) := by
  rw [Disk.writeWith, Tree.writeWith, h.locate_eq]
  cases t.locate p with
  | error why => exact ⟨rfl, h⟩
  | ok place =>
    dsimp only
    split
    · next n hfile =>
      rw [h.get?_of_file hfile]
      exact ⟨rfl, h.fill hfile _⟩
    · next hdirectory =>
      rw [h.get?_eq_directory_iff.mpr hdirectory]
      exact ⟨rfl, h⟩
    · next target hlink => exact absurd hlink (h.plain place target)
    · next hnone =>
      rw [h.get?_of_none hnone]
      exact ⟨rfl, h.putFile hnone _⟩

theorem Shows.makeDir (h : d.Shows t) (pieces : List String) :
    SameChange (Disk.makeDir [] d pieces) (t.makeDir pieces) := by
  rw [Disk.makeDir, Tree.makeDir, h.walk_eq, h.walk_eq]
  cases pieces.foldlM t.follow [] with
  | error why => exact ⟨rfl, h⟩
  | ok place =>
    dsimp only
    cases hnode : d.node? place with
    | none =>
      rw [h.get?_of_none hnode]
      have hput : (d.put place .directory).Shows (t.put place (d.entryOf .directory)) :=
        h.put (by simp [hnode]) (by simp) (by simp)
      exact ⟨rfl, hput⟩
    | some node =>
      cases node with
      | file n =>
        rw [h.get?_of_file hnode]
        exact ⟨rfl, h⟩
      | directory =>
        rw [h.get?_eq_directory_iff.mpr hnode]
        exact ⟨rfl, h⟩
      | link target => exact absurd hnode (h.plain place target)

/-- Directories that are made alike one by one are made alike all together. -/
theorem Shows.makeDirsInner (h : d.Shows t) (pieces : List String) :
    SameChange (Store.makeDirsInner (Disk.makeDir []) d pieces)
      (Store.makeDirsInner Tree.makeDir t pieces) := by
  induction pieces with
  | nil => exact ⟨rfl, h⟩
  | cons piece outer ih =>
    have hhere {e : Disk} {u : Tree} (h : e.Shows u) := h.makeDir (piece :: outer).reverse
    have hmake := hhere h
    simp only [Store.makeDirsInner]
    -- Both have the same answer here, and go the same way from it.
    generalize Disk.makeDir [] d (piece :: outer).reverse = made at hmake ⊢
    generalize t.makeDir (piece :: outer).reverse = made' at hmake ⊢
    generalize Store.makeDirsInner (Disk.makeDir []) d outer = around at ih ⊢
    generalize Store.makeDirsInner Tree.makeDir t outer = around' at ih ⊢
    obtain ⟨answer, e⟩ := made
    obtain ⟨answer', u⟩ := made'
    obtain ⟨rfl, hshows⟩ : answer = answer' ∧ e.Shows u := hmake
    obtain ⟨answer₂, e₂⟩ := around
    obtain ⟨answer₂', u₂⟩ := around'
    obtain ⟨rfl, hshows₂⟩ : answer₂ = answer₂' ∧ e₂.Shows u₂ := ih
    rcases answer with why | done
    · cases why with
      | notFound =>
        cases answer₂ with
        | error why => exact ⟨rfl, hshows₂⟩
        | ok done => exact hhere hshows₂
      | busy | alreadyExists | notDirectory | isDirectory | nameTooLong | unusableName | other =>
        exact ⟨rfl, hshows⟩
    · exact ⟨rfl, hshows⟩

theorem Shows.makeDirs (h : d.Shows t) (p : Path) : SameChange (d.makeDirs p) (t.makeDirs p) := by
  rw [Disk.makeDirs, Tree.makeDirs, h.start_eq p]
  cases p.flaw? with
  | none => exact h.makeDirsInner _
  | some why => exact ⟨rfl, h⟩

/-- A file that is moved has no other name, so its number is free once its name is gone. -/
theorem Shows.move {old new : Location} {n : Nat} (h : d.Shows t)
    (hold : d.node? old = some (.file n)) (hfree : d.node? new ≠ some .directory) :
    ((d.erase old).put new (.file n)).Shows
      ((t.erase old).put new (.file (d.content n))) := by
  have htop : old ≠ [] := ne_top_of_node? (d := d) (by simp [hold])
  refine (h.erase htop).put ?_ (by simp) ?_
  · by_cases hne : new = old
    · rw [hne, node?_erase_self htop]
      simp
    · rwa [node?_erase_of_ne hne]
  · rintro m ⟨⟩ q hq
    by_cases hne : q = old
    · rw [hne, node?_erase_self htop] at hq
      cases hq
    · rw [node?_erase_of_ne hne] at hq
      exact hne (h.single q old n hq hold)

theorem Shows.rename (h : d.Shows t) (source target : Path) :
    SameChange (d.rename source target) (t.rename source target) := by
  rw [Disk.rename, Tree.rename, h.locate_eq, h.locate_eq]
  rcases t.locate source with why | old
  · exact ⟨rfl, h⟩
  rcases t.locate target with why | new
  · exact ⟨rfl, h⟩
  dsimp only
  by_cases hname : target.lastName?.isNone = true
  · rw [if_pos hname, if_pos hname]
    exact ⟨rfl, h⟩
  rw [if_neg hname, if_neg hname]
  rcases hold : d.node? old with _ | n | _ | l
  case none =>
    rw [h.get?_of_none hold]
    exact ⟨rfl, h⟩
  case some.directory =>
    rw [h.get?_eq_directory_iff.mpr hold]
    exact ⟨rfl, h⟩
  case some.link => exact absurd hold (h.plain old l)
  rw [h.get?_of_file hold]
  dsimp only
  by_cases hslash : target.endsInSlash = true
  · rw [if_pos hslash, if_pos hslash]
    exact ⟨rfl, h⟩
  rw [if_neg hslash, if_neg hslash]
  by_cases hfree : d.node? new = some .directory
  · rw [if_pos hfree, if_pos (h.get?_eq_directory_iff.mpr hfree)]
    exact ⟨rfl, h⟩
  rw [if_neg hfree, if_neg (mt h.get?_eq_directory_iff.mp hfree)]
  have hmove := h.move hold hfree
  split
  · next m l hnode hnew =>
    obtain rfl : n = m := by simpa using hnode
    split
    · next hsame =>
      -- Two names of one file are one name, and putting it back changes nothing.
      subst hsame
      obtain rfl : old = new := h.single old new n hold hnew
      refine ⟨rfl, h.congr fun q => ?_⟩
      have htop : old ≠ [] := ne_top_of_node? hfree
      by_cases hq : q = old
      · rw [hq, Tree.get?_put_self htop, h.get?_of_file hold]
      · rw [Tree.get?_put_of_ne hq, Tree.get?_erase_of_ne hq]
    · exact ⟨rfl, hmove⟩
  · exact ⟨rfl, hmove⟩

end RetirementVault.Store.Disk
