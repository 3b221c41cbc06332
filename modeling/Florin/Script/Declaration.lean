import Florin.Script.Class

/-! # Declarations of variables

A constant has a value, and so has a pattern, but not what a loop goes over. A list of declarations
that does not end where it could is skipped up to the next end of a statement.
-/
namespace Florin.Script

variable (inner : Inner)

/-- The word `let` declares if something follows that can be declared. -/
def startsLet : Reading Bool := do
  if !(← isWord "let") then return false
  match (← following).token with
  | .word w => return !keywords.contains w
  | .punct p => return p = ['['] || p = ['\x7b']
  | _ => return false

def declarationWord? : Reading (Option (List Char)) := do
  match ← token with
  | .word w =>
    if w = "var".toList || w = "const".toList || (← startsLet) then return some w else return none
  | _ => return none

/-- A name or a pattern and its value. In the head of a loop nothing has to have a value that the
loop goes over. -/
def readDeclarator (keyword : List Char) (inHead : Bool) : Reading Tree := do
  let start ← place
  let isVar : Bool := keyword = "var".toList
  let target ← inner (.binding !isVar)
  if inHead && ((← isWord "in") || (← isWord "of")) then return target
  if ← take? "=" then
    let _ ← within (fun s => { s with noIn := inHead && isVar }) (inner .assignment)
    return .assignment start true target
  if keyword = "const".toList && !inHead then keep (.statement .uninitializedConst start)
  else if !target.isName then failFor (.statement .uninitializedPattern start)
  return target

def readDeclarations (keyword : List Char) (inHead : Bool) (soFar : List Item) : Reading Tree := do
  if ← isPunct ";" then
    let s ← get
    keep (.statement .trailingComma (if soFar.isEmpty then s.beforeEnd else s.before))
    return .list [] soFar none
  let items := soFar ++ [.part (← readDeclarator inner keyword inHead)]
  if ← take? "," then inner (.declarations keyword inHead items) else return .list [] items none

/-- Skips tokens up to the end of a statement, or to one that is a fault. The fuel bounds their
number. -/
def skipStatement : Nat → Reading Unit
  | 0 => return
  | fuel + 1 => do
    if ← takeStatementEnd? then return
    advance
    match ← token with
    | .fault _ => return
    | _ => skipStatement fuel

def readDeclaration (keyword : List Char) : Reading Unit := do
  advance
  let _ ← inner (.declarations keyword false [])
  if ← takeStatementEnd? then return
  keep (.statement .semicolon (← place))
  let _ ← try inner .expression catch _ => other
  skipStatement (← place).length

end Florin.Script
