import Florin.Text.Blank
import Florin.Text.Bytes
import Florin.Text.Split

/-! # Paths

A path is a text of names with slashes between them. Empty parts and parts that are a single dot
say nothing, except that a dot at the very front of a relative path is kept.
-/
namespace Florin
open Text

abbrev Name := List Char

structure Path where
  text : List Char
  deriving DecidableEq, Repr, Inhabited

inductive Component where
  | root
  | current
  | parent
  | name (n : Name)
  deriving DecidableEq, Repr

namespace Path

def ofString (s : String) : Path := ⟨s.toList⟩

def toString (p : Path) : String := String.ofList p.text

/-- The order of names goes by their code points. -/
def inOrder : Name → Name → Bool
  | [], _ => true
  | _ :: _, [] => false
  | c :: a, d :: b => c.toNat < d.toNat || (c = d && inOrder a b)

def dot : Name := ['.']

def dots : Name := ['.', '.']

def isAbsolute (p : Path) : Bool := p.text.head? = some '/'

def endsInSlash (p : Path) : Bool := p.text.getLast? = some '/'

/-- A part that says nothing. -/
def isSilent (part : Name) : Bool := part.isEmpty || part = dot

/-- The front of a path that no part of it covers: the root slash, or the dot of a relative path. -/
def lead (p : Path) : List Char :=
  if p.isAbsolute then ['/']
  else if (splitOn '/' p.text).head? = some dot then dot
  else []

def parts (p : Path) : List Name := splitOn '/' (p.text.drop p.lead.length)

def ofParts (lead : List Char) (parts : List Name) : Path := ⟨lead ++ joinWith '/' parts⟩

def components (p : Path) : List Component :=
  (if p.isAbsolute then [.root] else if p.lead.isEmpty then [] else [.current]) ++
  (p.parts.filter fun part => !isSilent part).map fun part =>
    if part = dots then .parent else .name part

/-- The last part that says something, if it is a name. -/
def fileName? (p : Path) : Option Name :=
  match p.components.getLast? with
  | some (.name n) => some n
  | _ => none

def parentParts? (parts : List Name) : Option (List Name) :=
  let spoken := dropWhileEnd isSilent parts
  if spoken.isEmpty then none else some (dropWhileEnd isSilent spoken.dropLast)

theorem parentParts?_length_lt {parts up : List Name} (h : parentParts? parts = some up) :
    up.length < parts.length := by
  simp only [parentParts?, List.isEmpty_iff, Option.ite_none_left_eq_some, Option.some.injEq] at h
  obtain ⟨hne, rfl⟩ := h
  have hpos := List.length_pos_iff.mpr hne
  have hspoken := dropWhileEnd_length_le isSilent parts
  have hup := dropWhileEnd_length_le isSilent (dropWhileEnd isSilent parts).dropLast
  rw [List.length_dropLast] at hup
  omega

/-- The path without its last component; the root and the empty path have none. -/
def parent? (p : Path) : Option Path :=
  match parentParts? p.parts with
  | some up => some (ofParts p.lead up)
  | none => if p.lead = dot then some ⟨[]⟩ else none

def ancestorsOf (lead : List Char) (parts : List Name) : List Path :=
  match _h : parentParts? parts with
  | some up => ofParts lead up :: ancestorsOf lead up
  | none => []
termination_by parts.length
decreasing_by exact parentParts?_length_lt _h

/-- The path and what is left of it as its components are taken away from the end, down to its
lead. -/
def ancestors (p : Path) : List Path := p :: ancestorsOf p.lead p.parts

def join (base inner : Path) : Path :=
  if inner.isAbsolute || base.text.isEmpty then inner
  else if base.endsInSlash then ⟨base.text ++ inner.text⟩
  else ⟨base.text ++ '/' :: inner.text⟩

def ofNames (names : List Name) : Path := ⟨joinWith '/' names⟩

/-- A name cut at its last dot; a dot at the front of a name does not count. -/
def splitName (n : Name) : Name × Option Name :=
  match (splitOn '.' n).reverse with
  | ext :: stem :: more =>
    let front := joinWith '.' (stem :: more).reverse
    if front.isEmpty || n = dots then (n, none) else (front, some ext)
  | _ => (n, none)

def extension? (n : Name) : Option Name := (splitName n).2

/-- A name with another extension. If no more than two dots are left of the name, they lead up and
take no extension. -/
def withExtension (n ext : Name) : Name :=
  let kept := (splitName n).1 ++ ['.']
  if kept = dots then dots else kept ++ ext

end Path

end Florin
