import Florin.Cli.Run

/-! # The program

A run loads what its paths lead to into a file tree, works on the tree, and writes the changes
back.
-/
namespace Florin.Main

def textOf (l : Location) : String := "/" ++ String.intercalate "/" (l.map String.ofList)

def locationOf (s : String) : Location := (Path.ofString s).names

/-- What stands at a location; links are not followed. -/
def kindAt (l : Location) : IO (Option IO.FS.FileType) := do
  let parent := textOf l.dropLast
  let name := String.ofList (l.getLast?.getD [])
  try
    let found ← (IO.FS.DirEntry.path ⟨parent, name⟩).symlinkMetadata
    return some found.type
  catch _ => return none

def namesIn (l : Location) : IO (List Name) := do
  let here ← IO.FS.realPath (textOf l)
  let inside ← here.readDir
  return inside.toList.map fun e => e.fileName.toList

/-- Where a link leads in the end; a link that leads nowhere leads to itself. -/
def linkTarget (l : Location) : IO Location := do
  try
    let real ← IO.FS.realPath (textOf l)
    return locationOf real.toString
  catch _ => return l

mutual

partial def loadEntry (deep : Bool) (l : Location) (t : FileTree) : IO FileTree := do
  match ← kindAt l with
  | none => return t
  | some .dir =>
    let t := if (t.entry? l).isSome then t else t.put l .directory
    if deep then loadBelow l t else return t
  | some .symlink =>
    if (t.entry? l).isSome then return t
    let real ← linkTarget l
    let t := t.put l (.link ⟨(textOf real).toList⟩)
    if real = l then return t else loadPath deep [] real t
  | some .file =>
    if (t.entry? l).isSome then return t
    return t.put l (.file (← IO.FS.readBinFile (textOf l)))
  | some .other => return t

partial def loadBelow (l : Location) (t : FileTree) : IO FileTree := do
  let mut t := t
  for n in ← namesIn l do
    t ← loadEntry true (l ++ [n]) t
  return t

/-- Loads what lies on the way from a location along some names, and what they lead to. -/
partial def loadPath (deep : Bool) (here : Location) (names : List Name) (t : FileTree) :
    IO FileTree := do
  match names with
  | [] => loadEntry deep here t
  | n :: rest =>
    if n = Path.dot then loadPath deep here rest t
    else if n = Path.dots then loadPath deep here.dropLast rest t
    else
      let l := here ++ [n]
      let t ← loadEntry (deep && rest.isEmpty) l t
      match t.entry? l with
      | some (.link target) =>
        if target.names = l then return t else loadPath deep [] (target.names ++ rest) t
      | some _ => if rest.isEmpty then return t else loadPath deep l rest t
      | none => return t

end

def load (deep : Bool) (t : FileTree) (p : Path) : IO FileTree :=
  loadPath deep (p.start t.current) p.names t

def loadArguments (c : Cli.Command) (t : FileTree) : IO FileTree :=
  match c with
  | .expand input output _ => ([input] ++ output.toList).foldlM (load false) t
  | .check input _ => load false t input
  | .build config .. => config.toList.foldlM (load false) t
  | .help => return t

def loadDirectories (c : Cli.Command) (t : FileTree) : IO FileTree :=
  match c with
  | .build config source distro k noClean _ =>
    match Cli.configOf config source distro k noClean t with
    | .ok c => [c.source, c.distro].foldlM (load true) t
    | .error _ => return t
  | _ => return t

def sameKind : Entry → Entry → Bool
  | .file _, .file _ => true
  | .directory, .directory => true
  | .link _, .link _ => true
  | _, _ => false

def sameEntry : Entry → Entry → Bool
  | .file a, .file b => a.toList = b.toList
  | a, b => sameKind a b

/-- Removes what is gone, the deeper entries first. -/
def removeGone (old new : FileTree) : IO Unit := do
  let gone := old.entries.filter fun (l, e) => !(new.entry? l).any (sameKind e)
  for (l, e) in gone.mergeSort fun a b => a.1.length ≥ b.1.length do
    if e.isDirectory then IO.FS.removeDir (textOf l) else IO.FS.removeFile (textOf l)

/-- Makes what is new or changed, the deeper entries last. -/
def makeNew (old new : FileTree) : IO Unit := do
  let made := new.entries.filter fun (l, e) => !(old.entry? l).any (sameEntry e)
  for (l, e) in made.mergeSort fun a b => a.1.length ≤ b.1.length do
    match e with
    | .directory => IO.FS.createDir (textOf l)
    | .file bytes => IO.FS.writeBinFile (textOf l) bytes
    | .link _ => pure ()

def environment : IO Cli.Environment := do
  let mut found := []
  for name in ["FTHIS_LOG", "RUST_LOG", "FTHIS_LOG_FORMAT"] do
    match ← IO.getEnv name with
    | some value => found := found ++ [(name, value)]
    | none => pure ()
  return found

def print (env : Cli.Environment) (o : Cli.Outcome) : IO Unit := do
  o.complaints.forM fun line => IO.eprintln line
  o.events.forM fun e => IO.eprintln (Cli.eventLine (Cli.logFormat env) e)
  IO.eprint o.stderr
  IO.print o.stdout

def run (args : List String) : IO UInt32 := do
  let env ← environment
  let here := locationOf (← IO.currentDir).toString
  let start ← loadPath false [] here ⟨[], here⟩
  let old ← match Cli.Command.ofArguments? args with
    | some command => loadArguments command start >>= loadDirectories command
    | none => pure start
  let (outcome, new) := Cli.run env args old
  removeGone old new
  makeNew old new
  print env outcome
  return UInt32.ofNat outcome.code

end Florin.Main

def main (args : List String) : IO UInt32 := Florin.Main.run args
