import Florin.Build.Report
import Florin.Config
import Florin.Expansion
import Florin.FileTree.Disk
import Florin.FileTree.Resolve
import Florin.Log

/-! # Builds

A build walks a source directory, expands every shorthand source into the output directory and
copies every other file there. It refuses an output directory that is the source directory or lies
inside it, and one whose removal would take the source directory with it.
-/
namespace Florin

namespace Build

structure State where
  tree : FileTree
  report : Report
  log : List Log.Event

/-- A build that fails keeps what it did before it failed. -/
abbrev Action := ExceptT BuildError (StateM State)

def logTarget : String := "fthis_build::build"

def log (e : Log.Event) : Action Unit := modify fun s => { s with log := s.log ++ [e] }

def onDisk (wrap : FileError → BuildError) (d : Disk α) : Action α := do
  let s ← get
  let (result, tree) := d.run.run s.tree
  set { s with tree := tree }
  match result with
  | .ok a => return a
  | .error e => throw (wrap e)

/-- The extension of shorthand sources, in any case of its letters. -/
def sourceExtension : Name := ['f', 'j', 's']

def outputExtension : Name := ['j', 's']

def isShorthandSource (n : Name) : Bool :=
  (Path.extension? n).any fun ext => ext.map Char.toLower = sourceExtension

/-- The names of the output of a source file, below the output directory. -/
def outputNames (names : List Name) : List Name :=
  match names.getLast? with
  | some n =>
    if isShorthandSource n then names.dropLast ++ [Path.withExtension n outputExtension] else names
  | none => names

def outputPath (c : Config) (names : List Name) : Path :=
  c.distro.join (Path.ofNames (outputNames names))

/-- Neither directory may take the other one's files. -/
def checkDisjoint (c : Config) : Action Unit := do
  let t := (← get).tree
  match t.resolve c.source, t.resolve c.distro with
  | .error e, _ => throw (.resolve c.source e)
  | .ok _, .error e => throw (.resolve c.distro e)
  | .ok source, .ok distro =>
    if source.isPrefixOf distro then throw (.insideSource c.distro c.source)
    if c.clean && distro.isPrefixOf source then throw (.deletesSource c.distro c.source)

def ensureParent (p : Path) : Action Unit := do
  match p.parent? with
  | some parent => onDisk (.create parent) (Disk.makeDirectories parent)
  | none => return

def expansionEvents (source : String) : List Log.Event :=
  (leftoverPlaces source).map fun place =>
    ⟨.trace, "fthis_rewrite::rewrite", "sigil does not start a shorthand, copied as-is",
      [("offset", .number place)]⟩

def pathValue (p : Path) : Log.Value := .text p.toString

def leftoverEvent (source : Path) (site : Site) : Log.Event :=
  ⟨.warn, logTarget, "ƒ shorthand could not be rewritten",
    [("file", pathValue source), ("line", .number site.line), ("column", .number site.column)]⟩

/-- Expands one file. The sites that are reported are those in the output. -/
def transformFile (c : Config) (source output : Path) : Action Unit := do
  let text ← onDisk (.read source) (Disk.readText source)
  (expansionEvents text).forM log
  let out := expandText c.keyword text
  -- What is left is told before the file is written, so it stays in the log if that fails.
  (leftoverSites out.toList).forM fun site => do
    log (leftoverEvent source site)
    modify fun s => { s with report :=
      { s.report with leftovers := s.report.leftovers ++ [⟨output, site⟩] } }
  ensureParent output
  onDisk (.write output) (Disk.writeFile output out.toUTF8)
  log ⟨.debug, logTarget, "rewrote", [("from", pathValue source), ("to", pathValue output)]⟩
  modify fun s => { s with report :=
    { s.report with transformed := s.report.transformed ++ [output] } }

def copyFile (source output : Path) : Action Unit := do
  ensureParent output
  onDisk (.copy source output) (Disk.copy source output)
  log ⟨.debug, logTarget, "copied", [("from", pathValue source), ("to", pathValue output)]⟩
  modify fun s => { s with report := { s.report with copied := s.report.copied ++ [output] } }

def buildFile (c : Config) (source : Path) (names : List Name) : Action Unit :=
  if names.getLast?.any isShorthandSource then transformFile c source (outputPath c names)
  else copyFile source (outputPath c names)

def list (c : Config) (directory : Path) : Action (List (Name × Entry)) := do
  let t := (← get).tree
  match t.find directory with
  | .ok (l, .directory) => return t.children l
  | .ok (_, _) => throw (.walk c.source .notDirectory)
  | .error e => throw (.walk c.source e)

/-- Walks a directory in the order of names. What a directory holds is looked up when the walk
comes to it, and links are passed by. The depth bounds how deep directories lie. -/
def walk (c : Config) : Nat → Path → List Name → Action Unit
  | 0, _, _ => throw (.walk c.source .nameTooLong)
  | depth + 1, directory, names => do
    let inside ← list c directory
    inside.forM fun (n, e) =>
      match e with
      | .directory => walk c depth (directory.join ⟨n⟩) (names ++ [n])
      | .file _ => buildFile c (directory.join ⟨n⟩) (names ++ [n])
      | .link _ => return

/-- No path is longer than 4096 bytes, so no directory lies deeper. -/
def depthLimit : Nat := 4096

def build (c : Config) : Action Unit := do
  let t := (← get).tree
  if !t.isDirectory c.source then throw (.noSource c.source)
  checkDisjoint c
  if c.clean && t.isPresent c.distro then onDisk (.clean c.distro) (Disk.removeAll c.distro)
  onDisk (.create c.distro) (Disk.makeDirectories c.distro)
  walk c depthLimit c.source []
  let r := (← get).report
  log ⟨.info, logTarget,
    "built " ++ c.source.toString ++ " into " ++ c.distro.toString,
    [("transformed", .number r.transformed.length), ("copied", .number r.copied.length)]⟩

structure Result where
  outcome : Except BuildError Report
  tree : FileTree
  log : List Log.Event

def run (c : Config) (t : FileTree) : Result :=
  let (result, s) := (build c).run.run ⟨t, .empty, []⟩
  ⟨result.map fun _ => s.report, s.tree, s.log⟩

end Build

end Florin
