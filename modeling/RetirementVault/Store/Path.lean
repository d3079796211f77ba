/-!
# Paths

A path is a text; slashes divide it into pieces. Two things are done with the text itself: finding
the path of the directory something lies in, and building the path of something next to it. An
empty piece and a single point both mean "here", which is why they are dropped where a path ends.
-/

namespace RetirementVault.Store

abbrev Path := String

namespace Path

/-- The parts of a text between slashes. -/
def splitSlashes : List Char → List (List Char)
  | [] => [[]]
  | c :: cs =>
    if c = '/' then [] :: splitSlashes cs
    else
      match splitSlashes cs with
      | [] => [[c]]
      | piece :: pieces => (c :: piece) :: pieces

def pieces (p : Path) : List String :=
  (splitSlashes p.toList).map String.ofList

/-- A piece that leads nowhere. -/
def isHere (piece : String) : Bool :=
  piece = "" || piece = "."

/-- Drops pieces that lead nowhere from the end, given innermost first. A point that stands alone
names the directory and stays. -/
def dropHere : List String → List String
  | [] => []
  | [piece] => if piece = "" then [] else [piece]
  | piece :: outer => if isHere piece then dropHere outer else piece :: outer

/-- The path of the directory a path lies in; none where that is the directory the path starts
from. -/
def parent? (p : Path) : Option Path :=
  match dropHere (dropHere p.pieces.reverse).tail with
  | [] => none
  | inner => some ("/".intercalate inner.reverse)

def endsInSlash (p : Path) : Bool :=
  p.toList.getLast? = some '/'

/-- The name a path ends in, with slashes behind it allowed; none where it ends in points. -/
def lastName? (p : Path) : Option String :=
  match p.pieces.reverse.dropWhile (· = "") with
  | [] => none
  | name :: _ => if name = "." ∨ name = ".." then none else some name

/-- A path next to a path, its name longer by an ending. -/
def sibling (p : Path) (ending : String) : Path :=
  p ++ ending

/-- The path of a name in a directory. -/
def child (directory : Path) (name : String) : Path :=
  if directory.endsInSlash then directory ++ name else directory ++ "/" ++ name

end Path
end RetirementVault.Store
