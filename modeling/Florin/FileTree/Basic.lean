import Florin.Path

/-! # File trees

A file tree holds an entry at each of its locations. A location is the list of names that leads to
it from the top, with no links on the way. A path is looked up name by name; a link on its way is
followed, and only so many of them.

What cannot be expressed: one file at two locations (a hard link), since each location has an entry
of its own, and a name that is no text, since a name is a list of characters.
-/
namespace Florin
open Text

abbrev Location := List Name

inductive Entry where
  | file (bytes : ByteArray)
  | directory
  | link (target : Path)

def Entry.isDirectory : Entry → Bool
  | .directory => true
  | _ => false

/-- The top itself is a directory without an entry. Relative paths start at `current`. -/
structure FileTree where
  entries : List (Location × Entry)
  current : Location

inductive FileError where
  | notFound
  | occupied
  | notDirectory
  | isDirectory
  | invalid
  | nameTooLong
  | notEmpty
  | tooManyLinks
  | zeroByte
  | notText
  deriving DecidableEq, Repr

def FileError.message : FileError → String
  | .notFound => "No such file or directory (os error 2)"
  | .occupied => "File exists (os error 17)"
  | .notDirectory => "Not a directory (os error 20)"
  | .isDirectory => "Is a directory (os error 21)"
  | .invalid => "Invalid argument (os error 22)"
  | .nameTooLong => "File name too long (os error 36)"
  | .notEmpty => "Directory not empty (os error 39)"
  | .tooManyLinks => "Too many levels of symbolic links (os error 40)"
  | .zeroByte => "file name contained an unexpected NUL byte"
  | .notText => "stream did not contain valid UTF-8"

namespace Path

def names (p : Path) : List Name := (splitOn '/' p.text).filter fun part => !part.isEmpty

/-- The names of a path one after the other; a slash at its end is an empty name, which asks for a
directory. -/
def steps (p : Path) : List Name :=
  p.names ++ (if p.endsInSlash then [[]] else [])

def fault? (p : Path) : Option FileError :=
  if p.text.isEmpty then some .notFound
  else if p.text.contains '\x00' then some .zeroByte
  else if byteLength p.text ≥ 4096 then some .nameTooLong
  else none

def start (p : Path) (here : Location) : Location := if p.isAbsolute then [] else here

end Path

namespace FileTree

def entry? (t : FileTree) (l : Location) : Option Entry :=
  if l.isEmpty then some .directory else t.entries.lookup l

def put (t : FileTree) (l : Location) (e : Entry) : FileTree :=
  { t with entries := (l, e) :: t.entries.filter fun x => x.1 ≠ l }

def erase (t : FileTree) (l : Location) : FileTree :=
  { t with entries := t.entries.filter fun x => x.1 ≠ l }

def isBelow (l above : Location) : Bool := above.isPrefixOf l && l ≠ above

def eraseBelow (t : FileTree) (l : Location) : FileTree :=
  { t with entries := t.entries.filter fun x => !isBelow x.1 l }

/-- The names and entries in a directory, by the code points of the names. -/
def children (t : FileTree) (l : Location) : List (Name × Entry) :=
  (t.entries.filterMap fun x =>
    if x.1.dropLast = l then x.1.getLast?.map fun n => (n, x.2) else none).mergeSort
      fun a b => Path.inOrder a.1 b.1

/-- Where a path leads: to an entry, or to a name that is free in a directory. -/
inductive Place where
  | present (l : Location) (e : Entry)
  | free (l : Location)

def Place.location : Place → Location
  | .present l _ => l
  | .free l => l

/-- What a path is looked up for: the link at its end itself, what it leads to through such a link,
or the file that writing to it fills. -/
inductive Purpose where
  | link
  | entry
  | output
  deriving DecidableEq, Repr

/-- Follows names from a location. No file to fill has a name with a slash after it. Every name,
`..` too, is looked up in a directory that is there: from a working directory that was removed
nothing is found, where a system that keeps the removed directory in use still goes up from it. -/
def follow (t : FileTree) (purpose : Purpose) (links : Nat) (here : Location)
    (steps : List Name) : Except FileError Place :=
  match steps with
  | [] =>
    match t.entry? here with
    | some e => .ok (.present here e)
    | none => .error .notFound
  | n :: rest =>
    if (t.entry? here).any Entry.isDirectory then
      if n.isEmpty || n = Path.dot then follow t purpose links here rest
      else if n = Path.dots then follow t purpose links here.dropLast rest
      else if purpose = .output && rest = [[]] then .error .isDirectory
      else if byteLength n > 255 then .error .nameTooLong
      else
        match t.entry? (here ++ [n]) with
        | none => if rest.isEmpty then .ok (.free (here ++ [n])) else .error .notFound
        | some (.link target) =>
          if rest.isEmpty && purpose = .link then .ok (.present (here ++ [n]) (.link target))
          else
            match links with
            | 0 => .error .tooManyLinks
            | links + 1 => follow t purpose links (target.start here) (target.steps ++ rest)
        | some _ => follow t purpose links (here ++ [n]) rest
    else if (t.entry? here).isSome then .error .notDirectory
    else .error .notFound
termination_by (links, steps.length)

def linkLimit : Nat := 40

def lookup (t : FileTree) (purpose : Purpose) (p : Path) : Except FileError Place :=
  match p.fault? with
  | some e => .error e
  | none => t.follow purpose linkLimit (p.start t.current) p.steps

/-- The entry that a path leads to when every link is followed. -/
def find (t : FileTree) (p : Path) : Except FileError (Location × Entry) :=
  match t.lookup .entry p with
  | .ok (.present l e) => .ok (l, e)
  | .ok (.free _) => .error .notFound
  | .error e => .error e

def isPresent (t : FileTree) (p : Path) : Bool := (t.find p).isOk

def isDirectory (t : FileTree) (p : Path) : Bool :=
  match t.find p with
  | .ok (_, e) => e.isDirectory
  | .error _ => false

/-- The directory that the last name of a path is looked up in, and that name. -/
def slot (t : FileTree) (p : Path) : Except FileError (Location × Name) :=
  match p.fault? with
  | some e => .error e
  | none =>
    match p.names.getLast? with
    | none => .ok ([], Path.dot)
    | some n =>
      match t.follow .entry linkLimit (p.start t.current) (p.names.dropLast ++ [Path.dot]) with
      | .error e => .error e
      | .ok place =>
        if byteLength n > 255 then .error .nameTooLong else .ok (place.location, n)

def bytes (t : FileTree) (p : Path) : Except FileError ByteArray :=
  match t.find p with
  | .ok (_, .file bytes) => .ok bytes
  | .ok (_, _) => .error .isDirectory
  | .error e => .error e

def text (t : FileTree) (p : Path) : Except FileError String :=
  match t.bytes p with
  | .ok bytes =>
    match String.fromUTF8? bytes with
    | some s => .ok s
    | none => .error .notText
  | .error e => .error e

end FileTree

end Florin
