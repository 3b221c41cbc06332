import Florin.Shorthand

/-! # Sites

Where a sigil stands in code: its byte offset from zero, its line and its column from one. A
column counts characters, and only a line feed ends a line.
-/
namespace Florin
open Lexical

structure Site where
  offset : Nat
  line : Nat
  column : Nat
  deriving DecidableEq, Repr, Inhabited

namespace Site

def start : Site := ⟨0, 1, 1⟩

def after (p : Site) (c : Char) : Site :=
  if c = '\n' then ⟨p.offset + c.utf8Size, p.line + 1, 1⟩
  else ⟨p.offset + c.utf8Size, p.line, p.column + 1⟩

def ofSteps (p : Site) : List Step → List Site
  | [] => []
  | s :: rest =>
    if s.isCodeChar sigil then p :: ofSteps (s.text.foldl after p) rest
    else ofSteps (s.text.foldl after p) rest

end Site

/-- The sites of the sigils in code, in the order of the text. -/
def leftoverSites (cs : List Char) : List Site := Site.ofSteps .start (trace .start cs)

end Florin
