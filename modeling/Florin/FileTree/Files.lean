import Florin.FileTree.Basic

/-! # Files below a directory

The files in a directory and in the directories below it, each by the names that lead to it. Links
are passed by.
-/
namespace Florin.FileTree

/-- The files below a location in the order of their names; directories below the depth are left
out. -/
def filesBelow (t : FileTree) : Nat → Location → List (List Name)
  | 0, _ => []
  | depth + 1, l =>
    (t.children l).flatMap fun (n, e) =>
      match e with
      | .file _ => [[n]]
      | .directory => (t.filesBelow depth (l ++ [n])).map (n :: ·)
      | .link _ => []

/-- No directory lies deeper than there are entries. -/
def depth (t : FileTree) : Nat := t.entries.length + 1

/-- The paths of the files below a path, component by component in ascending order. The path may be
a link to a directory; a path to a file gives that file. -/
def files (t : FileTree) (p : Path) : List Path :=
  match t.find p, t.lookup .link p with
  | .ok (l, .directory), _ => (t.filesBelow t.depth l).map fun names => p.join (Path.ofNames names)
  | .ok (_, .file _), .ok (.present _ (.file _)) => [p]
  | _, _ => []

end Florin.FileTree
