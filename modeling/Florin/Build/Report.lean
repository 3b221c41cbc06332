import Florin.FileTree.Basic
import Florin.Site

/-! # Build reports

What a build did, and why one failed.
-/
namespace Florin

/-- A sigil left in an output file. -/
structure Leftover where
  path : Path
  site : Site
  deriving DecidableEq, Repr

structure Report where
  transformed : List Path
  copied : List Path
  leftovers : List Leftover
  deriving DecidableEq, Repr

namespace Report

def empty : Report := ⟨[], [], []⟩

def isClean (r : Report) : Bool := r.leftovers.isEmpty

end Report

inductive BuildError where
  | noSource (source : Path)
  | insideSource (distro source : Path)
  | deletesSource (distro source : Path)
  | resolve (p : Path) (cause : FileError)
  | clean (p : Path) (cause : FileError)
  | create (p : Path) (cause : FileError)
  | walk (p : Path) (cause : FileError)
  | read (p : Path) (cause : FileError)
  | write (p : Path) (cause : FileError)
  | copy (source target : Path) (cause : FileError)
  deriving DecidableEq, Repr

namespace BuildError

def message : BuildError → String
  | .noSource s => "source directory " ++ s.toString ++ " does not exist"
  | .insideSource d s =>
    "output directory " ++ d.toString ++ " is inside source directory " ++ s.toString
  | .deletesSource d s =>
    "cleaning output directory " ++ d.toString ++ " would delete source directory " ++ s.toString
  | .resolve p _ => "failed to resolve " ++ p.toString
  | .clean p _ => "failed to clean " ++ p.toString
  | .create p _ => "failed to create " ++ p.toString
  | .walk p _ => "failed to walk " ++ p.toString
  | .read p _ => "failed to read " ++ p.toString
  | .write p _ => "failed to write " ++ p.toString
  | .copy p q _ => "failed to copy " ++ p.toString ++ " to " ++ q.toString

def cause? : BuildError → Option FileError
  | .noSource _ | .insideSource _ _ | .deletesSource _ _ => none
  | .resolve _ e | .clean _ e | .create _ e | .walk _ e | .read _ e | .write _ e | .copy _ _ e =>
    some e

end BuildError

end Florin
