import RetirementVault.Store.Tree
import RetirementVault.Word

/-!
# Where a path leads

Following a path asks the tree at every piece, but where it comes out is in the path alone:
`locate_eq_place` says that a path that can be followed leads to its `place`, whatever is in the
tree. So "the file at a path" means one location from before the directories around it are made
until after the file has been replaced.

The other fact is about files beside a file. A path and its sibling part at the last name only, so
they never lead to the same place (`place_sibling_ne`), and where the sibling can be followed the
path can be as well (`leads_of_sibling`).
-/

set_option autoImplicit false

namespace RetirementVault.Store

/-! ## Pieces of a longer path -/

namespace Path

theorem splitSlashes_append (cs : List Char) {ds : List Char} (h : '/' ∉ ds) :
    ∃ outer last, splitSlashes cs = outer ++ [last] ∧
      splitSlashes (cs ++ ds) = outer ++ [last ++ ds] := by
  induction cs with
  | nil =>
    refine ⟨[], [], rfl, ?_⟩
    induction ds with
    | nil => rfl
    | cons d ds ih =>
      rw [List.mem_cons, not_or] at h
      simp only [List.nil_append] at ih ⊢
      rw [splitSlashes, if_neg (Ne.symm h.1), ih h.2]
  | cons c cs ih =>
    obtain ⟨outer, last, hcs, happend⟩ := ih
    rw [List.cons_append, splitSlashes, splitSlashes]
    by_cases hc : c = '/'
    · exact ⟨[] :: outer, last, by rw [if_pos hc, hcs]; rfl, by rw [if_pos hc, happend]; rfl⟩
    · rw [if_neg hc, if_neg hc, hcs, happend]
      cases outer with
      | nil => exact ⟨[], c :: last, rfl, rfl⟩
      | cons piece outer => exact ⟨(c :: piece) :: outer, last, rfl, rfl⟩

/-- The pieces of a sibling are those of the path, the last one with the ending. -/
theorem pieces_sibling (p : Path) {ending : String} (h : '/' ∉ ending.toList) :
    ∃ outer last, p.pieces = outer ++ [last] ∧
      (p.sibling ending).pieces = outer ++ [last ++ ending] := by
  obtain ⟨outer, last, hp, happend⟩ := splitSlashes_append p.toList h
  refine ⟨outer.map String.ofList, String.ofList last, by rw [pieces, hp, List.map_append]; rfl, ?_⟩
  rw [pieces, sibling, String.toList_append, happend, List.map_append, List.map_singleton,
    String.ofList_append, String.ofList_toList]

/-! ## Places -/

/-- The location one piece further. -/
def walk (place : Location) (piece : String) : Location :=
  if isHere piece then place
  else if piece = ".." then place.dropLast
  else place ++ [piece]

/-- A step leads where a piece always leads. -/
theorem step_eq_ok {place next : Location} {piece : String} (h : step place piece = .ok next) :
    next = walk place piece := by
  unfold step at h
  unfold walk
  by_cases hhere : isHere piece = true
  · rw [if_pos hhere] at h ⊢
    exact (Except.ok.inj h).symm
  · rw [if_neg hhere] at h ⊢
    by_cases hup : piece = ".."
    · rw [if_pos hup] at h ⊢
      exact (Except.ok.inj h).symm
    · rw [if_neg hup] at h ⊢
      split at h
      · exact absurd h (by simp)
      · exact (Except.ok.inj h).symm

/-- A path that is followed at all can stand for one as a text. -/
theorem flaw?_eq_none_iff {p : Path} :
    p.flaw? = none ↔ p.toList.contains '\x00' = false ∧ p.utf8ByteSize ≤ maxPath := by
  unfold flaw?
  split
  · next hzero =>
    rw [hzero]
    simp
  · next hzero =>
    split
    · next hsize => exact ⟨fun h => absurd h (by simp), fun h => absurd h.2 (Nat.not_le.mpr hsize)⟩
    · next hsize =>
      exact ⟨fun _ => ⟨Bool.eq_false_iff.mpr hzero, Nat.not_lt.mp hsize⟩, fun _ => rfl⟩

/-- The location a path leads to if it leads anywhere. -/
def place (p : Path) : Location :=
  p.pieces.foldl walk []

/-- An ending of the kind that files beside a file have: no slash in it, and long enough to make a
name of whatever it is put behind. -/
structure Ending (ending : String) : Prop where
  flat : '/' ∉ ending.toList
  long : 2 < ending.toList.length

/-- What is longer than two dots is a name. -/
theorem Ending.append_ne {ending : String} (h : Ending ending) (last : String) {other : String}
    (hshort : other.toList.length ≤ 2) : last ++ ending ≠ other := by
  intro heq
  have hlen := congrArg (fun s => s.toList.length) heq
  simp only [String.toList_append, List.length_append] at hlen
  have := h.long
  omega

theorem Ending.isHere_append {ending : String} (h : Ending ending) (last : String) :
    isHere (last ++ ending) = false := by
  simp [isHere, h.append_ne last (show "".toList.length ≤ 2 by decide),
    h.append_ne last (show ".".toList.length ≤ 2 by decide)]

theorem Ending.walk_append {ending : String} (h : Ending ending) (outer : Location)
    (last : String) : walk outer (last ++ ending) = outer ++ [last ++ ending] := by
  rw [walk, h.isHere_append, if_neg (by simp), if_neg (h.append_ne last (by decide))]

/-- A name with an ending lies elsewhere than the piece without it leads. -/
theorem Ending.concat_ne_walk {ending : String} (h : Ending ending) (outer : Location)
    (last : String) : outer ++ [last ++ ending] ≠ walk outer last := by
  intro heq
  -- Where the piece is no name the places differ in length, and where it is one in the name.
  unfold walk at heq
  split at heq
  · exact absurd (congrArg List.length heq) (by simp)
  · split at heq
    · exact absurd (congrArg List.length heq) (by simp; omega)
    · have hlast : last ++ ending = last := by simpa using heq
      have hlen := congrArg (fun s => s.toList.length) hlast
      simp only [String.toList_append, List.length_append] at hlen
      have := h.long
      omega

/-- A piece can be followed where it can be with an ending. -/
theorem Ending.step_of_append {ending piece : String} {place next : Location} (h : Ending ending)
    (hstep : step place (piece ++ ending) = .ok next) :
    step place piece = .ok (walk place piece) := by
  have hsize : ¬ maxName < piece.utf8ByteSize := by
    intro hlong
    have hlonger : maxName < (piece ++ ending).utf8ByteSize := by
      rw [String.utf8ByteSize_append]
      omega
    have hname : piece ++ ending ≠ ".." := h.append_ne piece (by decide)
    rw [step, h.isHere_append, if_neg (by simp), if_neg hname, if_pos hlonger] at hstep
    exact absurd hstep (by simp)
  simp only [step, walk, if_neg hsize]
  repeat' split
  all_goals rfl

theorem flaw?_of_sibling {ending : String} {p : Path}
    (hflaw : (p.sibling ending).flaw? = none) : p.flaw? = none := by
  obtain ⟨hzero, hsize⟩ := flaw?_eq_none_iff.mp hflaw
  rw [sibling, String.utf8ByteSize_append] at hsize
  rw [sibling, String.toList_append] at hzero
  refine flaw?_eq_none_iff.mpr ⟨?_, by omega⟩
  simp only [List.contains_eq_mem, List.mem_append, decide_eq_false_iff_not, not_or] at hzero ⊢
  exact hzero.1

/-- **A sibling never leads to where the path leads.** -/
theorem place_sibling_ne (p : Path) {ending : String} (h : Ending ending) :
    (p.sibling ending).place ≠ p.place := by
  obtain ⟨outer, last, hp, hsibling⟩ := pieces_sibling p h.flat
  rw [place, place, hp, hsibling, List.foldl_append, List.foldl_append, List.foldl_cons,
    List.foldl_cons, List.foldl_nil, List.foldl_nil, h.walk_append]
  exact h.concat_ne_walk _ _

/-- Siblings with different endings lead to different places. -/
theorem place_sibling_inj (p : Path) {ending other : String} (h : Ending ending)
    (h' : Ending other) (heq : (p.sibling ending).place = (p.sibling other).place) :
    ending = other := by
  obtain ⟨outer, last, hp, hsibling⟩ := pieces_sibling p h.flat
  obtain ⟨outer', last', hp', hsibling'⟩ := pieces_sibling p h'.flat
  obtain ⟨rfl, hlast⟩ := List.append_inj' (hp.symm.trans hp') rfl
  obtain rfl : last = last' := List.singleton_inj.mp hlast
  rw [place, place, hsibling, hsibling', List.foldl_append, List.foldl_append, List.foldl_cons,
    List.foldl_cons, List.foldl_nil, List.foldl_nil, h.walk_append, h'.walk_append] at heq
  have hnames : last ++ ending = last ++ other := by simpa using heq
  exact String.append_right_inj last |>.mp hnames

end Path

/-! ## Following -/

namespace Tree

variable {t : Tree} {p : Path} {place : Location}

/-- A piece is followed from directories only, and leads where it always leads. -/
theorem follow_eq_ok {piece : String} {next : Location} (h : t.follow place piece = .ok next) :
    t.get? place = some .directory ∧ next = Path.walk place piece := by
  unfold follow at h
  split at h
  · exact absurd h (by simp)
  · exact absurd h (by simp)
  · next hdirectory => exact ⟨hdirectory, Path.step_eq_ok h⟩

theorem foldlM_follow_eq_ok {pieces : List String} {start : Location}
    (h : pieces.foldlM t.follow start = .ok place) : place = pieces.foldl Path.walk start := by
  induction pieces generalizing start with
  | nil => exact (Except.ok.inj h).symm
  | cons piece pieces ih =>
    rw [List.foldlM_cons, bind_eq_ok] at h
    obtain ⟨next, hnext, hrest⟩ := h
    rw [List.foldl_cons, ← (follow_eq_ok hnext).2]
    exact ih hrest

/-- A path can be followed if its text can stand for one and every piece can be followed. -/
theorem locate_eq_ok_iff : t.locate p = .ok place ↔
    p.flaw? = none ∧ p.pieces.foldlM t.follow [] = .ok place := by
  unfold locate
  cases hflaw : p.flaw? with
  | none => simp
  | some why => simp

/-- **A path leads to its place**, whatever is in the tree. -/
theorem locate_eq_place (h : t.locate p = .ok place) : place = p.place :=
  foldlM_follow_eq_ok (locate_eq_ok_iff.mp h).2

/-- A path that can be followed to its end, whether there is something or not. -/
def Leads (t : Tree) (p : Path) : Prop :=
  t.locate p = .ok p.place

theorem leads_of_locate (h : t.locate p = .ok place) : t.Leads p := by
  rw [Leads, h, locate_eq_place h]

/-- **Where a sibling can be followed the path can be as well.** -/
theorem leads_of_sibling {ending : String} (hending : Path.Ending ending)
    (h : t.Leads (p.sibling ending)) : t.Leads p := by
  obtain ⟨hflaw, hfollow⟩ := locate_eq_ok_iff.mp h
  obtain ⟨outer, last, hp, hsibling⟩ := p.pieces_sibling hending.flat
  rw [hsibling, List.foldlM_append, bind_eq_ok] at hfollow
  obtain ⟨mid, hto, hfollow⟩ := hfollow
  rw [List.foldlM_cons, bind_eq_ok] at hfollow
  obtain ⟨next, hnext, _⟩ := hfollow
  have hstep : t.follow mid last = .ok (Path.walk mid last) := by
    have hdirectory := (follow_eq_ok hnext).1
    rw [follow, hdirectory] at hnext ⊢
    exact hending.step_of_append hnext
  have hpieces : p.pieces.foldlM t.follow [] = .ok (Path.walk mid last) := by
    rw [hp, List.foldlM_append, bind_eq_ok]
    refine ⟨mid, hto, ?_⟩
    rw [List.foldlM_cons, bind_eq_ok]
    exact ⟨_, hstep, rfl⟩
  exact leads_of_locate (locate_eq_ok_iff.mpr ⟨Path.flaw?_of_sibling hflaw, hpieces⟩)

/-! ## Directories that stay -/

/-- Every directory of one tree is one in another. -/
def KeepsDirectories (t u : Tree) : Prop :=
  ∀ place, t.get? place = some .directory → u.get? place = some .directory

theorem KeepsDirectories.trans {t u v : Tree} (h : t.KeepsDirectories u)
    (h' : u.KeepsDirectories v) : t.KeepsDirectories v :=
  fun place hplace => h' place (h place hplace)

theorem KeepsDirectories.foldlM_follow {u : Tree} (h : t.KeepsDirectories u)
    {pieces : List String} {start : Location}
    (hfollow : pieces.foldlM t.follow start = .ok place) :
    pieces.foldlM u.follow start = .ok place := by
  induction pieces generalizing start with
  | nil => exact hfollow
  | cons piece pieces ih =>
    rw [List.foldlM_cons, bind_eq_ok] at hfollow ⊢
    obtain ⟨next, hnext, hrest⟩ := hfollow
    have hdirectory := (follow_eq_ok hnext).1
    refine ⟨next, ?_, ih hrest⟩
    rw [← hnext, follow, follow, hdirectory, h start hdirectory]

/-- **A path that can be followed can be followed as long as the directories stay.** -/
theorem Leads.mono {u : Tree} (h : t.Leads p) (hkeeps : t.KeepsDirectories u) : u.Leads p := by
  obtain ⟨hflaw, hfollow⟩ := locate_eq_ok_iff.mp h
  exact locate_eq_ok_iff.mpr ⟨hflaw, hkeeps.foldlM_follow hfollow⟩

theorem keepsDirectories_put {q : Location} (h : t.get? q ≠ some .directory) (e : Entry) :
    t.KeepsDirectories (t.put q e) := by
  intro place hplace
  have hne : place ≠ q := by
    rintro rfl
    exact h hplace
  rw [get?_put_of_ne hne]
  exact hplace

theorem leads_put_file {q : Location} {content : List UInt8} (hq : t.get? q ≠ some .directory)
    (h : t.Leads p) : (t.put q (.file content)).Leads p :=
  h.mono (keepsDirectories_put hq _)

theorem keepsDirectories_erase {q : Location} (h : t.get? q ≠ some .directory) :
    t.KeepsDirectories (t.erase q) := by
  intro place hplace
  have hne : place ≠ q := by
    rintro rfl
    exact h hplace
  rw [get?_erase_of_ne hne]
  exact hplace

end Tree
end RetirementVault.Store
