import Florin.Script.Grammar
import Florin.Site
import Florin.Text.Width

/-! # Checking a script

A script passes if no sigil stands in its code and its syntax is that of a module. What is wrong
is told with the name of the file, a line and a column.
-/
namespace Florin.Check
open Text

inductive Problem where
  | leftover (first : Site) (count : Nat)
  | syntaxFault (place : DisplayPlace) (kind : Script.FaultKind)
  deriving DecidableEq, Repr

def Problem.message (file : String) : Problem → String
  | .leftover first count =>
    file ++ ":" ++ toString first.line ++ ":" ++ toString first.column ++
      ": ƒ shorthand was not rewritten (" ++ toString count ++ " occurrence(s))"
  | .syntaxFault place kind =>
    file ++ ":" ++ toString place.line ++ ":" ++ toString place.column ++ ": " ++ kind.message

def script (cs : List Char) : Except Problem Unit :=
  match Script.firstFault? cs with
  | none => .ok ()
  | some f => .error (.syntaxFault (displayPlace cs (cs.length - f.place.length)) f.kind)

/-- A leftover sigil counts before any syntax fault. -/
def output (cs : List Char) : Except Problem Unit :=
  match leftoverSites cs with
  | first :: more => .error (.leftover first (more.length + 1))
  | [] => script cs

end Florin.Check
