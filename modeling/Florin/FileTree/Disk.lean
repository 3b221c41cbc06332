import Florin.FileTree.Basic

/-! # Changing a file tree

What a program does to a file tree. A step that fails keeps what it changed before it failed.
-/
namespace Florin

abbrev Disk := ExceptT FileError (StateM FileTree)

namespace FileTree

def isFree (t : FileTree) (l : Location) : Bool := (t.entry? l).isNone

def makeDirectory (t : FileTree) (p : Path) : Except FileError FileTree :=
  match t.slot p with
  | .error e => .error e
  | .ok (l, n) =>
    if n = Path.dot || n = Path.dots || !t.isFree (l ++ [n]) then .error .occupied
    else .ok (t.put (l ++ [n]) .directory)

/-- The location of the file that writing to a path fills. A link at the end is followed, also one
that leads to a free name. -/
def target (t : FileTree) (p : Path) : Except FileError Location :=
  match t.lookup .output p with
  | .error e => .error e
  | .ok (.present _ .directory) => .error .isDirectory
  | .ok place => .ok place.location

def write (t : FileTree) (p : Path) (bytes : ByteArray) : Except FileError FileTree :=
  match t.target p with
  | .error e => .error e
  | .ok l => .ok (t.put l (.file bytes))

def makeLink (t : FileTree) (p target : Path) : Except FileError FileTree :=
  match t.slot p with
  | .error e => .error e
  | .ok (l, n) =>
    if n = Path.dot || n = Path.dots || !t.isFree (l ++ [n]) then .error .occupied
    else .ok (t.put (l ++ [n]) (.link target))

def removeDirectory (t : FileTree) (p : Path) : Except FileError FileTree :=
  match t.slot p with
  | .error e => .error e
  | .ok (l, n) =>
    if n = Path.dot then .error .invalid
    else if n = Path.dots then .error .notEmpty
    else
      match t.entry? (l ++ [n]) with
      | none => .error .notFound
      | some .directory =>
        if (t.children (l ++ [n])).isEmpty then .ok (t.erase (l ++ [n])) else .error .notEmpty
      | some _ => .error .notDirectory

end FileTree

namespace Disk

def change (f : FileTree → Except FileError FileTree) : Disk Unit := do
  match f (← get) with
  | .ok t => set t
  | .error e => throw e

def writeFile (p : Path) (bytes : ByteArray) : Disk Unit := change fun t => t.write p bytes

def readText (p : Path) : Disk String := do
  match (← get).text p with
  | .ok s => return s
  | .error e => throw e

/-- The target is emptied before anything is read, so a file copied onto itself ends up empty. -/
def copy (source target : Path) : Disk Unit := do
  match (← get).bytes source with
  | .error e => throw e
  | .ok _ =>
    writeFile target ByteArray.empty
    match (← get).bytes source with
    | .error e => throw e
    | .ok bytes => writeFile target bytes

/-- Makes the first one of the paths that can be made; gives back those before it, which lack
their parents. -/
def makeFirst : List Path → Disk (List Path)
  | [] => return []
  | p :: up => do
    if p.text.isEmpty || p.parent?.isNone then return []
    let t ← get
    match t.makeDirectory p with
    | .ok t => set t; return []
    | .error .notFound => return p :: (← makeFirst up)
    | .error .occupied => if t.isDirectory p then return [] else throw .occupied
    | .error e => throw e

def makeUnlessPresent (p : Path) : Disk Unit := do
  let t ← get
  match t.makeDirectory p with
  | .ok t => set t
  | .error .occupied => if !t.isDirectory p then throw .occupied
  | .error e => throw e

def makeDirectories (p : Path) : Disk Unit := do
  if p.text.isEmpty || p.parent?.isNone then return
  let missing ← makeFirst p.ancestors
  missing.reverse.forM makeUnlessPresent

/-- Removes a directory with everything below it. Of a link only the link itself is removed. -/
def removeAll (p : Path) : Disk Unit := do
  match (← get).lookup .link p with
  | .error e => throw e
  | .ok (.free _) => throw .notFound
  | .ok (.present l (.link _)) => modify fun t => t.erase l
  | .ok (.present _ (.file _)) => throw .notDirectory
  | .ok (.present l .directory) =>
    modify fun t => t.eraseBelow l
    let t ← get
    match t.removeDirectory p with
    | .ok t => set t
    | .error .notFound => return
    | .error e => throw e

def remove (p : Path) : Disk Unit := do
  match (← get).lookup .link p with
  | .ok (.present l (.file _)) => modify fun t => t.erase l
  | _ => removeAll p

end Disk

end Florin
