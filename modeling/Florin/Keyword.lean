/-! # Declaration keywords

The keyword that declares the function of a named shorthand.
-/
namespace Florin

inductive Keyword where
  | var
  | let_
  | const
  deriving DecidableEq, Repr

namespace Keyword

def all : List Keyword := [var, let_, const]

def name : Keyword → String
  | .var => "var"
  | .let_ => "let"
  | .const => "const"

def default : Keyword := .var

instance : Inhabited Keyword := ⟨default⟩

def ofName? (s : String) : Option Keyword := all.find? fun k => k.name = s

theorem ofName?_name (k : Keyword) : ofName? k.name = some k := by cases k <;> decide

theorem name_of_ofName? {s : String} {k : Keyword} (h : ofName? s = some k) : k.name = s := by
  simpa using List.find?_some h

def unknownMessage (s : String) : String :=
  "unknown declaration keyword \x60" ++ s ++ "\x60 (expected var, let or const)"

end Keyword

end Florin
