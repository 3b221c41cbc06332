import Florin.Expansion
import Florin.FileTree.Files

/-! # Fixtures

A fixture is an input file with the file that its expansion is expected to give beside it. The
first part of the input's name may choose the declaration keyword.
-/
namespace Florin.Fixture
open Text

def inputSuffix : List Char := ".input.fjs".toList

def expectedSuffix : List Char := ".expected.js".toList

def isInputName (n : Name) : Bool := inputSuffix.isSuffixOf n

/-- Every occurrence of the input suffix in the path is replaced. -/
def expectedPath (p : Path) : Path := ⟨replaceAll inputSuffix expectedSuffix p.text⟩

/-- The keyword that the file name starts with, if a dot follows it or nothing does. -/
def keyword (p : Path) : Keyword :=
  let first := ((splitOn '.' (p.fileName?.getD [])).head?).getD []
  (Keyword.ofName? (String.ofList first)).getD .default

def run (p : Path) (source : String) : String := expandText (keyword p) source

def collect (t : FileTree) (p : Path) : List Path :=
  (t.files p).filter fun q => q.fileName?.any isInputName

end Florin.Fixture
