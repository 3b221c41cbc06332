import Florin.Keyword
import Florin.Outline

/-! # Expansion to arrow functions

A shorthand becomes an arrow function, or a function expression if it is a generator. A named one
is declared by a keyword, an unnamed one stands in parentheses. All other text stays as it is.
-/
namespace Florin
open Text Lexical

namespace Shorthand

/-- Blanks and semicolons at the end of an expanded expression fall away. -/
def cleanExpression (cs : List Char) : List Char := trimEnd (dropWhileEnd (· = ';') (trimEnd cs))

def function (s : Shorthand) (isAsync : Bool) (params body : List Char) : List Char :=
  (if isAsync then asyncWord ++ [' '] else []) ++
  match s.body with
  | .block _ =>
    if s.generator then
      "function* (".toList ++ params ++ [')', ' ', '{'] ++ body ++ ['}']
    else ['('] ++ params ++ [')', ' ', '=', '>', ' ', '{'] ++ body ++ ['}']
  | .expression _ => ['('] ++ params ++ [')', ' ', '=', '>', ' '] ++ cleanExpression body

def standard (s : Shorthand) (k : Keyword) (isAsync : Bool) (params body : List Char) :
    List Char :=
  match s.name with
  | some name =>
    k.name.toList ++ [' '] ++ name ++ [' ', '=', ' '] ++ s.function isAsync params body ++ [';']
  | none => ['('] ++ s.function isAsync params body ++ [')']

end Shorthand

def Outline.render (k : Keyword) : Outline → List Char
  | .done => []
  | .text cs rest => cs ++ rest.render k
  | .leftover rest => sigil :: rest.render k
  | .shorthand gap s params body rest =>
    s.standard k gap.isSome (params.render k) (body.render k) ++ rest.render k

/-- Expands every shorthand of a source text. A text without a sigil is its own result. -/
def expand (k : Keyword) (cs : List Char) : List Char :=
  if sigil ∈ cs then (Outline.ofText cs).render k else cs

def expandText (k : Keyword) (source : String) : String := String.ofList (expand k source.toList)

def leftoverPlaces (source : String) : List Nat :=
  if sigil ∈ source.toList then (Outline.ofText source.toList).leftovers 0 else []

end Florin
