import Florin.FileTree.Basic

/-! # Locations of paths that need not be there yet

The longest part of a path that is there is looked up, and the missing names are put below it. The path is looked up
from the top, so it must not be too long with the current directory in front of it.
-/
namespace Florin
open Text

namespace Path

def ofLocation (l : Location) : Path := ⟨'/' :: joinWith '/' l⟩

end Path

namespace FileTree

def absolute (t : FileTree) (p : Path) : Path :=
  if p.isAbsolute then p else (Path.ofLocation t.current).join p

/-- The location of the first path that is there, with the last names of the paths before it put below. -/
def settle (t : FileTree) : List Path → Except FileError Location
  | [] => .error .notFound
  | p :: up =>
    match t.find p with
    | .ok (l, _) => .ok l
    | .error e =>
      match p.fileName? with
      | some n => (t.settle up).map fun l => l ++ [n]
      | none => .error e

/-- The location of a path that need not be there yet. -/
def resolve (t : FileTree) (p : Path) : Except FileError Location :=
  if !p.isAbsolute && !(t.entry? t.current).any Entry.isDirectory then .error .notFound
  else t.settle (t.absolute p).ancestors

end FileTree

end Florin
