import RetirementVault.Store.Fault
import RetirementVault.Store.Path

/-!
# A tree of files

Files and directories below one directory, each at its location: the names that lead to it. A path
is followed piece by piece, and every place on the way has to be a directory, also one that only
empty pieces follow.

A call that fails leaves the tree as it was, with one exception that `makeDirs` cannot avoid: the
outer directories it has made stay when an inner one cannot be made.

A tree is what one program works in: it has no links, every file has one name, and the directory
that relative paths start from is the top, so that `s`, `/s` and `../s` are one file. `Disk` is
without these limits.
-/

namespace RetirementVault.Store

/-- The names that lead from the top to a file or directory. -/
abbrev Location := List String

/-! ## Paths, piece by piece -/

namespace Path

def maxName : Nat := 255

def maxPath : Nat := 4095

/-- What is wrong with a path before it is followed. -/
def flaw? (p : Path) : Option FileFault :=
  if p.toList.contains '\x00' then some .unusableName
  else if maxPath < p.utf8ByteSize then some .nameTooLong
  else none

/-- The location one piece further than a directory. -/
def step (place : Location) (piece : String) : Except FileFault Location :=
  if isHere piece then .ok place
  else if piece = ".." then .ok place.dropLast
  else if maxName < piece.utf8ByteSize then .error .nameTooLong
  else .ok (place ++ [piece])

end Path

/-- Makes the directory that pieces lead to, the innermost given first, and those around it as far
as they are missing. `makeDir` makes one of them. -/
def makeDirsInner {σ : Type} (makeDir : σ → List String → Except FileFault Unit × σ) (s : σ) :
    List String → Except FileFault Unit × σ
  | [] => (.ok (), s)
  | piece :: outer =>
    let pieces := (piece :: outer).reverse
    match makeDir s pieces with
    | (.error .notFound, _) =>
      match makeDirsInner makeDir s outer with
      | (.ok (), made) => makeDir made pieces
      | (.error why, made) => (.error why, made)
    | (answer, made) => (answer, made)

/-! ## Entries under keys -/

section

variable {κ ε : Type} [DecidableEq κ]

/-- Replaces the entry under a key or adds one. -/
def putEntry (key : κ) (e : ε) : List (κ × ε) → List (κ × ε)
  | [] => [(key, e)]
  | x :: rest => if x.1 = key then (key, e) :: rest else x :: putEntry key e rest

variable [BEq κ] [LawfulBEq κ]

theorem lookup_putEntry_self (key : κ) (e : ε) (entries : List (κ × ε)) :
    (putEntry key e entries).lookup key = some e := by
  induction entries with
  | nil => simp [putEntry]
  | cons x rest ih =>
    unfold putEntry
    split
    · simp
    · next h => rw [List.lookup_cons, beq_false_of_ne (Ne.symm h), ih]

theorem lookup_putEntry_of_ne {key other : κ} (h : other ≠ key) (e : ε)
    (entries : List (κ × ε)) : (putEntry key e entries).lookup other = entries.lookup other := by
  induction entries with
  | nil => simp [putEntry, List.lookup_cons, beq_false_of_ne h]
  | cons x rest ih =>
    unfold putEntry
    split
    · next hx => rw [List.lookup_cons, List.lookup_cons, hx, beq_false_of_ne h]
    · rw [List.lookup_cons, List.lookup_cons, ih]

theorem lookup_filter_self (key : κ) (entries : List (κ × ε)) :
    (entries.filter fun x => x.1 ≠ key).lookup key = none := by
  rw [List.lookup_eq_none_iff]
  intro x hx
  have h : x.1 ≠ key := of_decide_eq_true (List.mem_filter.1 hx).2
  exact bne_iff_ne.2 (Ne.symm h)

theorem lookup_filter_of_ne {key other : κ} (h : other ≠ key) (entries : List (κ × ε)) :
    (entries.filter fun x => x.1 ≠ key).lookup other = entries.lookup other := by
  induction entries with
  | nil => rfl
  | cons x rest ih =>
    rw [List.filter_cons, List.lookup_cons]
    split
    · rw [List.lookup_cons, ih]
    · next hx =>
      have hx : x.1 = key := by simpa using hx
      rw [ih, hx, beq_false_of_ne h]

end

/-! ## Trees -/

inductive Entry where
  | file (content : List UInt8)
  | directory
  deriving DecidableEq, Repr

/-- Files and directories below one directory. -/
structure Tree where
  entries : List (Location × Entry)
  deriving DecidableEq, Repr

namespace Tree

def empty : Tree where
  entries := []

/-- What is at a location; the top is a directory. -/
def get? (t : Tree) (place : Location) : Option Entry :=
  if place = [] then some .directory else t.entries.lookup place

def put (t : Tree) (place : Location) (e : Entry) : Tree where
  entries := putEntry place e t.entries

def erase (t : Tree) (place : Location) : Tree where
  entries := t.entries.filter fun x => x.1 ≠ place

/-! ## What a change leaves -/

theorem get?_put_self {place : Location} (h : place ≠ []) (t : Tree) (e : Entry) :
    (t.put place e).get? place = some e := by
  simp [get?, put, h, lookup_putEntry_self]

theorem get?_put_of_ne {place other : Location} (h : other ≠ place) (t : Tree) (e : Entry) :
    (t.put place e).get? other = t.get? other := by
  simp [get?, put, lookup_putEntry_of_ne h]

theorem get?_erase_self {place : Location} (h : place ≠ []) (t : Tree) :
    (t.erase place).get? place = none := by
  rw [get?, if_neg h]
  exact lookup_filter_self place t.entries

theorem get?_erase_of_ne {place other : Location} (h : other ≠ place) (t : Tree) :
    (t.erase place).get? other = t.get? other := by
  unfold get?
  rw [show (t.erase place).entries.lookup other = t.entries.lookup other from
    lookup_filter_of_ne h t.entries]

/-! ## Following paths -/

/-- Follows one piece from a place. -/
def follow (t : Tree) (place : Location) (piece : String) : Except FileFault Location :=
  match t.get? place with
  | none => .error .notFound
  | some (.file _) => .error .notDirectory
  | some .directory => Path.step place piece

/-- The location a path leads to, whether there is something or not. -/
def locate (t : Tree) (p : Path) : Except FileFault Location :=
  match p.flaw? with
  | some why => .error why
  | none => p.pieces.foldlM t.follow []

/-- What a path leads to. -/
def entry (t : Tree) (p : Path) : Except FileFault Entry :=
  match t.locate p with
  | .error why => .error why
  | .ok place =>
    match t.get? place with
    | none => .error .notFound
    | some e => .ok e

/-! ## Calls that look -/

def read (t : Tree) (p : Path) : Except FileFault (List UInt8) :=
  match t.entry p with
  | .error why => .error why
  | .ok .directory => .error .isDirectory
  | .ok (.file content) => .ok content

def isThere (t : Tree) (p : Path) : Bool :=
  match t.entry p with
  | .ok _ => true
  | .error _ => false

/-! ## Calls that change -/

/-- Makes a file hold what is computed from its content, nothing if there is no such file. -/
def writeWith (t : Tree) (p : Path) (f : List UInt8 → List UInt8) :
    Except FileFault Unit × Tree :=
  match t.locate p with
  | .error why => (.error why, t)
  | .ok place =>
    match t.get? place with
    | some .directory => (.error .isDirectory, t)
    | some (.file content) => (.ok (), t.put place (.file (f content)))
    | none => (.ok (), t.put place (.file (f [])))

/-- Makes sure that there is a file, whatever it holds. -/
def openKept (t : Tree) (p : Path) : Except FileFault Unit × Tree :=
  t.writeWith p id

/-- Makes an empty file, in place of another if there is one. -/
def create (t : Tree) (p : Path) : Except FileFault Unit × Tree :=
  t.writeWith p fun _ => []

def append (t : Tree) (p : Path) (bytes : List UInt8) : Except FileFault Unit × Tree :=
  t.writeWith p (· ++ bytes)

/-- Makes the directory that pieces lead to; one that is there already will do. -/
def makeDir (t : Tree) (pieces : List String) : Except FileFault Unit × Tree :=
  match pieces.foldlM t.follow [] with
  | .error why => (.error why, t)
  | .ok place =>
    match t.get? place with
    | some .directory => (.ok (), t)
    | some (.file _) => (.error .alreadyExists, t)
    | none => (.ok (), t.put place .directory)

/-- Makes a directory and those around it as far as they are missing. -/
def makeDirs (t : Tree) (p : Path) : Except FileFault Unit × Tree :=
  match p.flaw? with
  | some why => (.error why, t)
  | none => makeDirsInner makeDir t p.pieces.reverse

/-- Moves a file to another path, in place of a file if there is one. The new path has to end in
the name of the file: one that ends in points is refused, and so is one with a slash behind the
name. -/
def rename (t : Tree) (source target : Path) : Except FileFault Unit × Tree :=
  match t.locate source, t.locate target with
  | .error why, _ => (.error why, t)
  | _, .error why => (.error why, t)
  | .ok old, .ok new =>
    if target.lastName?.isNone then (.error .busy, t)
    else
      match t.get? old with
      | none => (.error .notFound, t)
      | some .directory => (.error .isDirectory, t)
      | some (.file content) =>
        if target.endsInSlash then (.error .notDirectory, t)
        else if t.get? new = some .directory then (.error .isDirectory, t)
        else (.ok (), (t.erase old).put new (.file content))

end Tree
end RetirementVault.Store
