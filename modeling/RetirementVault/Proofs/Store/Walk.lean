import RetirementVault.Proofs.Store.Place
import RetirementVault.Store.Disk

/-!
# Ways over a disk

With links a path alone does not say where it leads. Three things are left of `place`. A way that
has been found stays the same while files and directories are only added (`walk_mono`). Going
through a link at the end and stopping at it are one way up to there (`walk_stop`). And a path and
its siblings part at the last piece only, whatever links there are before it (`walk_concat`), so
that their names are always different ones in one directory (`names_sibling_ne`,
`names_sibling_inj`).

Each of the three is first about `walkWith`, where it is known of the ways behind a link, and then
about `walk`, by induction on the links that are allowed.
-/

set_option autoImplicit false

namespace RetirementVault.Store

theorem Path.start_sibling (base : Location) (p : Path) {ending : String}
    (h : '/' ∉ ending.toList) : (p.sibling ending).start base = p.start base := by
  rw [start, start, sibling, String.toList_append]
  cases p.toList with
  | cons c cs => rfl
  | nil =>
    have hhead : ending.toList.head? ≠ some '/' := fun hslash => h (List.mem_of_mem_head? hslash)
    rw [List.nil_append, if_neg hhead]
    rfl

namespace Disk

variable {d e : Disk} {through : Bool} {p : Path} {place q r : Location} {node : Node}

/-! ## Names and files -/

theorem ne_top_of_node? (h : d.node? q ≠ some .directory) : q ≠ [] := by
  rintro rfl
  exact h rfl

theorem node?_put_self (h : place ≠ []) (d : Disk) (node : Node) :
    (d.put place node).node? place = some node := by
  simp [node?, put, h, lookup_putEntry_self]

theorem node?_put_of_ne (h : q ≠ place) (d : Disk) (node : Node) :
    (d.put place node).node? q = d.node? q := by
  simp [node?, put, lookup_putEntry_of_ne h]

theorem node?_erase_self (h : place ≠ []) (d : Disk) : (d.erase place).node? place = none := by
  rw [node?, if_neg h]
  exact lookup_filter_self place d.names

theorem node?_erase_of_ne (h : q ≠ place) (d : Disk) :
    (d.erase place).node? q = d.node? q := by
  unfold node?
  rw [show (d.erase place).names.lookup q = d.names.lookup q from lookup_filter_of_ne h d.names]

@[simp] theorem node?_fill (d : Disk) (n : Nat) (bytes : List UInt8) (q : Location) :
    (d.fill n bytes).node? q = d.node? q := rfl

@[simp] theorem content_put (d : Disk) (place : Location) (node : Node) (n : Nat) :
    (d.put place node).content n = d.content n := rfl

@[simp] theorem content_erase (d : Disk) (place : Location) (n : Nat) :
    (d.erase place).content n = d.content n := rfl

@[simp] theorem content_fill_self (d : Disk) (n : Nat) (bytes : List UInt8) :
    (d.fill n bytes).content n = bytes := by
  rw [content, fill, lookup_putEntry_self, Option.getD_some]

theorem content_fill_of_ne {m n : Nat} (h : m ≠ n) (d : Disk) (bytes : List UInt8) :
    (d.fill n bytes).content m = d.content m := by
  rw [content, content, fill, lookup_putEntry_of_ne h]

/-- A number is above those of all files. -/
theorem lt_fresh {n : Nat} (h : d.node? q = some (.file n)) : n < d.fresh := by
  have htop : q ≠ [] := ne_top_of_node? (d := d) (by simp [h])
  rw [node?, if_neg htop] at h
  unfold fresh
  generalize d.names = names at h
  induction names with
  | nil => exact absurd h (by simp)
  | cons x rest ih =>
    rw [List.lookup_cons] at h
    rw [List.foldr_cons]
    split at h
    · rw [Option.some.inj h]
      exact Nat.le_max_left _ _
    · split
      · exact Nat.lt_of_lt_of_le (ih h) (Nat.le_max_right _ _)
      · exact ih h
      · exact ih h

/-- No file has a number. -/
def Unused (d : Disk) (n : Nat) : Prop :=
  ∀ q, d.node? q ≠ some (.file n)

theorem unused_fresh (d : Disk) : d.Unused d.fresh :=
  fun _ h => Nat.lt_irrefl _ (lt_fresh h)

/-! ## Growing -/

/-- One disk has become another by files and directories that were added where nothing was. -/
structure Grows (d e : Disk) : Prop where
  here : e.here = d.here
  keeps : ∀ q node, d.node? q = some node → e.node? q = some node
  plain : ∀ q target, e.node? q = some (.link target) → d.node? q = some (.link target)

theorem Grows.not_link (h : d.Grows e) (hq : d.node? q = none) (target : Path) :
    e.node? q ≠ some (.link target) := by
  intro hlink
  exact absurd (hq.symm.trans (h.plain q target hlink)) (by simp)

theorem Grows.unused {n : Nat} (h : d.Grows e) (hn : e.Unused n) : d.Unused n :=
  fun q hq => hn q (h.keeps q _ hq)

/-! ## Ways that stay -/

section

variable {behind behind' : Location → List String → Except FileFault Location}
  {pieces : List String}

theorem walkWith_mono (h : d.Grows e)
    (hbehind : ∀ place pieces q, behind place pieces = .ok q → behind' place pieces = .ok q)
    (hwalk : d.walkWith through behind place pieces = .ok q) :
    e.walkWith through behind' place pieces = .ok q := by
  induction pieces generalizing place with
  | nil =>
    rw [walkWith] at hwalk ⊢
    cases hnode : d.node? place with
    | none =>
      rw [hnode] at hwalk
      split
      · next target hlink => exact absurd hlink (h.not_link hnode target)
      · exact hwalk
      · exact hwalk
      · exact hwalk
    | some node =>
      rw [hnode] at hwalk
      rw [h.keeps place node hnode]
      cases node with
      | file n => exact hwalk
      | directory => exact hwalk
      | link target =>
        cases through with
        | false => exact hwalk
        | true => exact hbehind _ _ _ hwalk
  | cons piece rest ih =>
    rw [walkWith] at hwalk ⊢
    cases hnode : d.node? place with
    | none =>
      rw [hnode] at hwalk
      exact absurd hwalk (by simp)
    | some node =>
      rw [hnode] at hwalk
      rw [h.keeps place node hnode]
      cases node with
      | file n => exact hwalk
      | link target => exact hbehind _ _ _ hwalk
      | directory =>
        dsimp only at hwalk ⊢
        split at hwalk
        · exact absurd hwalk (by simp)
        · exact ih hwalk

/-- **A way stays the same** while a disk only grows. -/
theorem walk_mono (h : d.Grows e) {links : Nat}
    (hwalk : d.walk through links place pieces = .ok q) :
    e.walk through links place pieces = .ok q := by
  induction links generalizing place pieces q with
  | zero => exact walkWith_mono h (fun _ _ _ => id) hwalk
  | succ links ih => exact walkWith_mono h (fun _ _ _ => ih) hwalk

/-! ## Stopping at a link -/

theorem walkWith_stop
    (hbehind : ∀ place pieces q, behind place pieces = .ok q →
      ∃ l, behind' place pieces = .ok l ∧ (l = q ∨ ∃ target, d.node? l = some (.link target)))
    (hwalk : d.walkWith true behind place pieces = .ok q) :
    ∃ l, d.walkWith false behind' place pieces = .ok l ∧
      (l = q ∨ ∃ target, d.node? l = some (.link target)) := by
  induction pieces generalizing place with
  | nil =>
    rw [walkWith] at hwalk
    refine ⟨place, ?_, ?_⟩
    · rw [walkWith]
      split <;> rfl
    · split at hwalk
      · next target hlink => exact .inr ⟨target, hlink⟩
      · exact .inl (Except.ok.inj hwalk)
      · exact .inl (Except.ok.inj hwalk)
      · exact .inl (Except.ok.inj hwalk)
  | cons piece rest ih =>
    rw [walkWith] at hwalk ⊢
    split at hwalk
    · exact absurd hwalk (by simp)
    · exact absurd hwalk (by simp)
    · exact hbehind _ _ _ hwalk
    · split at hwalk
      · exact absurd hwalk (by simp)
      · exact ih hwalk

/-- **The way to a file passes the name** it is reached under, which is the file's or a link's. -/
theorem walk_stop {links : Nat} (hwalk : d.walk true links place pieces = .ok q) :
    ∃ l, d.walk false links place pieces = .ok l ∧
      (l = q ∨ ∃ target, d.node? l = some (.link target)) := by
  induction links generalizing place pieces q with
  | zero =>
    refine walkWith_stop (fun _ _ _ h => ?_) hwalk
    exact absurd h (by simp)
  | succ links ih => exact walkWith_stop (fun _ _ _ => ih) hwalk

/-! ## The last piece -/

theorem walkWith_concat {last : String}
    (hbehind : ∀ place outer q, behind place (outer ++ [last]) = .ok q →
      ∃ mid, ∀ piece, behind place (outer ++ [piece]) = Path.step mid piece)
    {outer : List String} (hwalk : d.walkWith false behind place (outer ++ [last]) = .ok q) :
    ∃ mid, ∀ piece, d.walkWith false behind place (outer ++ [piece]) = Path.step mid piece := by
  induction outer generalizing place with
  | nil =>
    rw [List.nil_append, walkWith] at hwalk
    split at hwalk
    · exact absurd hwalk (by simp)
    · exact absurd hwalk (by simp)
    · next target hlink =>
      obtain ⟨mid, hmid⟩ := hbehind _ _ _ hwalk
      refine ⟨mid, fun piece => ?_⟩
      rw [List.nil_append, walkWith, hlink]
      exact hmid piece
    · next hdirectory =>
      refine ⟨place, fun piece => ?_⟩
      rw [List.nil_append, walkWith, hdirectory]
      dsimp only
      cases Path.step place piece with
      | error why => rfl
      | ok next =>
        dsimp only
        rw [walkWith]
        split <;> rfl
  | cons first outer ih =>
    rw [List.cons_append, walkWith] at hwalk
    split at hwalk
    · exact absurd hwalk (by simp)
    · exact absurd hwalk (by simp)
    · next target hlink =>
      rw [← List.cons_append, ← List.append_assoc] at hwalk
      obtain ⟨mid, hmid⟩ := hbehind _ _ _ hwalk
      refine ⟨mid, fun piece => ?_⟩
      rw [List.cons_append, walkWith, hlink]
      dsimp only
      rw [← List.cons_append, ← List.append_assoc]
      exact hmid piece
    · next hdirectory =>
      split at hwalk
      · exact absurd hwalk (by simp)
      · next next hstep =>
        obtain ⟨mid, hmid⟩ := ih hwalk
        refine ⟨mid, fun piece => ?_⟩
        rw [List.cons_append, walkWith, hdirectory, hstep]
        exact hmid piece

/-- **Ways that differ in the last piece part there**, whatever links there are before it. -/
theorem walk_concat {links : Nat} {outer : List String} {last : String}
    (hwalk : d.walk false links place (outer ++ [last]) = .ok q) :
    ∃ mid, ∀ piece, d.walk false links place (outer ++ [piece]) = Path.step mid piece := by
  induction links generalizing place outer q with
  | zero =>
    refine walkWith_concat (fun _ _ _ h => ?_) hwalk
    exact absurd h (by simp)
  | succ links ih => exact walkWith_concat (fun _ _ _ => ih) hwalk

end

/-! ## Where a path leads -/

/-- A path names a location. -/
def Names (d : Disk) (p : Path) (q : Location) : Prop :=
  d.locate false p = .ok q

/-- A path leads to a location, through the link it names if it names one. -/
def Leads (d : Disk) (p : Path) (q : Location) : Prop :=
  d.locate true p = .ok q

/-- A path leads through a location or ends there. -/
def Passes (d : Disk) (p : Path) (q : Location) : Prop :=
  ∃ front, front <+: p.pieces ∧ d.walk false maxLinks (p.start d.here) front = .ok q

theorem locate_eq_ok_iff : d.locate through p = .ok q ↔
    p.flaw? = none ∧ d.walk through maxLinks (p.start d.here) p.pieces = .ok q := by
  unfold locate
  cases p.flaw? with
  | none => simp
  | some why => simp

theorem locate_mono (h : d.Grows e) (hlocate : d.locate through p = .ok q) :
    e.locate through p = .ok q := by
  obtain ⟨hflaw, hwalk⟩ := locate_eq_ok_iff.mp hlocate
  refine locate_eq_ok_iff.mpr ⟨hflaw, ?_⟩
  rw [h.here]
  exact walk_mono h hwalk

theorem Names.mono (hnames : d.Names p q) (h : d.Grows e) : e.Names p q :=
  locate_mono h hnames

theorem Leads.mono (hleads : d.Leads p q) (h : d.Grows e) : e.Leads p q :=
  locate_mono h hleads

theorem Passes.mono (hpasses : d.Passes p q) (h : d.Grows e) : e.Passes p q := by
  obtain ⟨front, hfront, hwalk⟩ := hpasses
  refine ⟨front, hfront, ?_⟩
  rw [h.here]
  exact walk_mono h hwalk

theorem Leads.names (h : d.Leads p q) :
    ∃ l, d.Names p l ∧ (l = q ∨ ∃ target, d.node? l = some (.link target)) := by
  obtain ⟨hflaw, hwalk⟩ := locate_eq_ok_iff.mp h
  obtain ⟨l, hl, hend⟩ := walk_stop hwalk
  exact ⟨l, locate_eq_ok_iff.mpr ⟨hflaw, hl⟩, hend⟩

/-- The directory a name lies in and the last piece of its path say where the siblings are. -/
theorem Names.siblings (h : d.Names p q) :
    ∃ mid last, q = Path.walk mid last ∧
      ∀ ending, Path.Ending ending → ∀ r, d.Names (p.sibling ending) r →
        r = mid ++ [last ++ ending] := by
  obtain ⟨outer, last, hp⟩ : ∃ outer last, p.pieces = outer ++ [last] := by
    obtain ⟨outer, last, hp, -⟩ := p.pieces_sibling (show '/' ∉ "".toList by decide)
    exact ⟨outer, last, hp⟩
  have hwalk := (locate_eq_ok_iff.mp h).2
  rw [hp] at hwalk
  obtain ⟨mid, hmid⟩ := walk_concat hwalk
  refine ⟨mid, last, Path.step_eq_ok ((hmid last).symm.trans hwalk), fun ending hending r hr => ?_⟩
  obtain ⟨outer', last', hp', hsibling⟩ := p.pieces_sibling hending.flat
  obtain ⟨rfl, hlast⟩ := List.append_inj' (hp.symm.trans hp') rfl
  obtain rfl : last = last' := List.singleton_inj.mp hlast
  have hwalk' := (locate_eq_ok_iff.mp hr).2
  rw [hsibling, Path.start_sibling _ _ hending.flat, hmid] at hwalk'
  rw [Path.step_eq_ok hwalk', hending.walk_append]

/-- **A sibling never names what the path names.** -/
theorem names_sibling_ne {ending : String} (hending : Path.Ending ending) (h : d.Names p q)
    (h' : d.Names (p.sibling ending) r) : r ≠ q := by
  obtain ⟨mid, last, rfl, hsiblings⟩ := h.siblings
  rw [hsiblings ending hending r h']
  exact hending.concat_ne_walk mid last

/-- Siblings with different endings have different names. -/
theorem names_sibling_inj {ending other : String} (hending : Path.Ending ending)
    (hother : Path.Ending other) (h : d.Names p q) (hq : d.Names (p.sibling ending) r)
    (hr : d.Names (p.sibling other) r) : ending = other := by
  obtain ⟨mid, last, -, hsiblings⟩ := h.siblings
  have heq := (hsiblings ending hending r hq).symm.trans (hsiblings other hother r hr)
  have hnames : last ++ ending = last ++ other := by simpa using heq
  exact (String.append_right_inj last).mp hnames

end Disk
end RetirementVault.Store
