import RetirementVault.Store.Tree

/-!
# A disk

Files and directories as a computer keeps them. A name stands for a file, a directory or a link. A
file can have several names, and a link is a path that is followed in place of its name. A path
starts in the working directory, or at the top if a slash is in front.

Whether a link at the end of a path is followed depends on the call. Reading and writing follow it,
so what is written may lie anywhere, and a link that leads to nothing yet has its file made where it
leads. Making a directory and moving are about the name itself.

A name that is no text, a device, a socket or a pipe is not on such a disk.
-/

namespace RetirementVault.Store

/-- What a name can stand for. -/
inductive Node where
  | file (number : Nat)
  | directory
  | link (target : Path)
  deriving DecidableEq, Repr

structure Disk where
  names : List (Location × Node)
  /-- What the files hold, by their numbers. -/
  contents : List (Nat × List UInt8)
  /-- The working directory. -/
  here : Location := []
  deriving DecidableEq, Repr

/-- Where a path starts that is followed from a directory. -/
def Path.start (base : Location) (p : Path) : Location :=
  if p.toList.head? = some '/' then [] else base

namespace Disk

def empty : Disk where
  names := []
  contents := []

/-- What is at a location; the top is a directory. -/
def node? (d : Disk) (place : Location) : Option Node :=
  if place = [] then some .directory else d.names.lookup place

def content (d : Disk) (number : Nat) : List UInt8 :=
  (d.contents.lookup number).getD []

/-- A number that no file has. -/
def fresh (d : Disk) : Nat :=
  d.names.foldr (fun x bound =>
    match x.2 with
    | .file n => max (n + 1) bound
    | .directory | .link _ => bound) 0

def put (d : Disk) (place : Location) (node : Node) : Disk :=
  { d with names := putEntry place node d.names }

def erase (d : Disk) (place : Location) : Disk :=
  { d with names := d.names.filter fun x => x.1 ≠ place }

/-- The disk with something else in a file. -/
def fill (d : Disk) (number : Nat) (bytes : List UInt8) : Disk :=
  { d with contents := putEntry number bytes d.contents }

/-- The disk with a new file. -/
def putFile (d : Disk) (place : Location) (bytes : List UInt8) : Disk :=
  (d.put place (.file d.fresh)).fill d.fresh bytes

/-! ## Following paths -/

/-- Links that are followed on one way. -/
def maxLinks : Nat := 40

def tooManyLinks : FileFault :=
  .other "Too many levels of symbolic links (os error 40)"

/-- Follows pieces from a location. `behind` goes on where a link leads, with the pieces of the link
before those that are left. A link at the end is followed only where one goes `through` it. -/
def walkWith (d : Disk) (through : Bool)
    (behind : Location → List String → Except FileFault Location) :
    Location → List String → Except FileFault Location
  | place, [] =>
    match d.node? place with
    | some (.link target) =>
      if through then behind (target.start place.dropLast) target.pieces else .ok place
    | some (.file _) | some .directory | none => .ok place
  | place, piece :: rest =>
    match d.node? place with
    | none => .error .notFound
    | some (.file _) => .error .notDirectory
    | some (.link target) =>
      behind (target.start place.dropLast) (target.pieces ++ piece :: rest)
    | some .directory =>
      match Path.step place piece with
      | .error why => .error why
      | .ok next => d.walkWith through behind next rest

/-- Follows pieces with as many links as are allowed. -/
def walk (d : Disk) (through : Bool) : Nat → Location → List String → Except FileFault Location
  | 0 => d.walkWith through fun _ _ => .error tooManyLinks
  | links + 1 => d.walkWith through (d.walk through links)

/-- The location a path leads to, or with `through` off the one it names, whether there is something
or not. -/
def locate (d : Disk) (through : Bool) (p : Path) : Except FileFault Location :=
  match p.flaw? with
  | some why => .error why
  | none => d.walk through maxLinks (p.start d.here) p.pieces

/-! ## Calls that look -/

/-- The content of a file. -/
def read (d : Disk) (p : Path) : Except FileFault (List UInt8) :=
  match d.locate true p with
  | .error why => .error why
  | .ok place =>
    match d.node? place with
    | some (.file n) => .ok (d.content n)
    | some .directory => .error .isDirectory
    | some (.link _) | none => .error .notFound

/-- Whether a path leads to something. -/
def isThere (d : Disk) (p : Path) : Bool :=
  match d.locate true p with
  | .ok place => (d.node? place).isSome
  | .error _ => false

/-! ## Calls that change -/

/-- Makes the file a path leads to hold what is computed from its content, nothing if there is no
such file. -/
def writeWith (d : Disk) (p : Path) (f : List UInt8 → List UInt8) : Except FileFault Unit × Disk :=
  match d.locate true p with
  | .error why => (.error why, d)
  | .ok place =>
    match d.node? place with
    | some (.file n) => (.ok (), d.fill n (f (d.content n)))
    | some .directory => (.error .isDirectory, d)
    | some (.link _) => (.error .notFound, d)
    | none => (.ok (), d.putFile place (f []))

/-- Makes sure that there is a file, whatever it holds. -/
def openKept (d : Disk) (p : Path) : Except FileFault Unit × Disk :=
  d.writeWith p id

/-- Makes an empty file, or empties the one that is there. -/
def create (d : Disk) (p : Path) : Except FileFault Unit × Disk :=
  d.writeWith p fun _ => []

def append (d : Disk) (p : Path) (bytes : List UInt8) : Except FileFault Unit × Disk :=
  d.writeWith p (· ++ bytes)

/-- Makes the directory that pieces name; one that they lead to will do. -/
def makeDir (base : Location) (d : Disk) (pieces : List String) : Except FileFault Unit × Disk :=
  match d.walk false maxLinks base pieces with
  | .error why => (.error why, d)
  | .ok place =>
    match d.node? place with
    | none => (.ok (), d.put place .directory)
    | some _ =>
      match d.walk true maxLinks base pieces with
      | .error _ => (.error .alreadyExists, d)
      | .ok inner =>
        if d.node? inner = some .directory then (.ok (), d) else (.error .alreadyExists, d)

/-- Makes a directory and those around it as far as they are missing. -/
def makeDirs (d : Disk) (p : Path) : Except FileFault Unit × Disk :=
  match p.flaw? with
  | some why => (.error why, d)
  | none => makeDirsInner (makeDir (p.start d.here)) d p.pieces.reverse

/-- Moves a name that is not that of a directory to another path, in place of another such name. Two
names of one file both stay. -/
def rename (d : Disk) (source target : Path) : Except FileFault Unit × Disk :=
  match d.locate false source, d.locate false target with
  | .error why, _ => (.error why, d)
  | _, .error why => (.error why, d)
  | .ok old, .ok new =>
    if target.lastName?.isNone then (.error .busy, d)
    else
      match d.node? old with
      | none => (.error .notFound, d)
      | some .directory => (.error .isDirectory, d)
      | some node =>
        if target.endsInSlash then (.error .notDirectory, d)
        else if d.node? new = some .directory then (.error .isDirectory, d)
        else
          match node, d.node? new with
          | .file n, some (.file m) =>
            if n = m then (.ok (), d) else (.ok (), (d.erase old).put new node)
          | _, _ => (.ok (), (d.erase old).put new node)

end Disk
end RetirementVault.Store
