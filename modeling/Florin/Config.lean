import Florin.Document.Reader
import Florin.Keyword
import Florin.Path

/-! # Configurations

What a build works with, and how it is written as a document. Every field may be left out.
-/
namespace Florin
open Document

/-- With `clean` the output directory is removed before anything is written. -/
structure Config where
  source : Path
  distro : Path
  keyword : Keyword
  clean : Bool
  deriving DecidableEq, Repr

namespace Keyword

def field : String := "declarationKeyword"

def read : Reader Keyword := do
  let word ← word (all.map name)
  return (ofName? (String.ofList word)).getD default

def readOptions (text : String) : Except Fault Keyword :=
  document (record [⟨field, fun _ => read⟩] default "struct RewriteOptions") text

end Keyword

namespace Config

def default : Config := ⟨.ofString "source", .ofString "distro", .default, true⟩

def fields : List (RecordField Config) := [
  ⟨"source", fun c => return { c with source := ⟨← string "path string"⟩ }⟩,
  ⟨"distro", fun c => return { c with distro := ⟨← string "path string"⟩ }⟩,
  ⟨Keyword.field, fun c => return { c with keyword := ← Keyword.read }⟩,
  ⟨"clean", fun c => return { c with clean := ← boolean "a boolean" }⟩]

def read (text : String) : Except Fault Config :=
  document (record fields default "struct BuildConfig") text

end Config

end Florin
