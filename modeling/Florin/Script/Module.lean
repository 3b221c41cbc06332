import Florin.Script.Statement

/-! # Imports and exports

The items of a module are its statements, its imports and its exports. A name that is not exported
from elsewhere is a variable.
-/
namespace Florin.Script

variable (inner : Inner)

/-- A name as another module knows it: any word, or a string. -/
def readModuleName : Reading Key := do
  match ← token with
  | .word w => advance; return .word w
  | .string text => advance; return .string text
  | _ => unexpected "identifier or string"

/-- The attributes of an import, on the line of the module they are about. -/
def readAttributes : Reading Unit := do
  if ← afterBreak then return
  if (← takeWord? "with") || (← takeWord? "assert") then
    let start ← place
    expect "\x7b"
    let _ ← inner (.fields start [] none)

def readSource : Reading Unit := do
  expectWord "from"
  match ← token with
  | .string _ => advance
  | _ => unexpected "a string literal"
  readAttributes inner
  expectStatementEnd

def readImportName : Reading Unit := do
  let start ← place
  let name ← readModuleName
  if ← takeWord? "as" then
    let _ ← boundName false
    return
  match name with
  | .string text => failFor (.statement (.stringImport text) start)
  | .word w => if reservedWords.contains w then failFor (.name .imported start)
  | _ => return

def readImportNames : Reading Tree := do
  if ← take? "\x7d" then return ← other
  readImportName
  let _ ← separator "\x7d"
  inner .importNames

/-- The variable for what a module exports by default; says whether more is imported. -/
def readDefaultName? : Reading Bool := do
  if !(← isVariable) then return true
  let phase := (← isWord "source") || (← isWord "defer")
  let _ ← boundName false
  if phase then
    if ← isPunct "*" then return true
    if (← isVariable) && !(← isWord "from") then
      let _ ← boundName false
  if ← isWord "from" then return false
  expect ","
  return true

def readImport : Reading Unit := do
  match ← token with
  | .string _ =>
    advance
    readAttributes inner
    let _ ← takeStatementEnd?
  | _ =>
    if ← readDefaultName? then
      if ← take? "*" then
        expectWord "as"
        let _ ← boundName false
      else if ← take? "\x7b" then
        let _ ← inner .importNames
    readSource inner

def readDefault : Reading Unit := do
  if ← takeWord? "class" then
    let _ ← inner (.classRest false)
  else if ← startsAsyncFunction then readAsyncFunction inner false
  else if ← isWord "function" then
    let _ ← readFunction inner false false true
  else
    let _ ← allowingIn (inner .assignment)
    expectStatementEnd

/-- Words that no export is named by without a module that it comes from. -/
def unexportedWords : List (List Char) := keywords ++ ["enum", "package"].map String.toList

def exportFault? (start : Place) : Key → Option Fault
  | .word w =>
    if unexportedWords.contains w then some (.statement (.reservedExport w) start) else none
  | .string _ => some (.statement .stringExport start)
  | _ => none

def readExportNames (faults : List Fault) : Reading Tree := do
  if ← take? "\x7d" then
    if ← isWord "from" then readSource inner
    else
      faults.forM keep
      let _ ← takeStatementEnd?
    return ← other
  let start ← place
  let name ← readModuleName
  if ← takeWord? "as" then
    let _ ← readModuleName
  let _ ← separator "\x7d"
  inner (.exportNames (faults ++ (exportFault? start name).toList))

def readExport : Reading Unit := do
  if ← takeWord? "default" then readDefault inner
  else if ← takeWord? "class" then
    let _ ← inner (.classRest true)
  else if ← startsAsyncFunction then readAsyncFunction inner true
  else if ← isWord "function" then
    let _ ← readFunction inner false true true
  else
    match ← declarationWord? with
    | some keyword => readDeclaration inner keyword
    | none =>
      if ← take? "*" then
        if ← takeWord? "as" then
          let _ ← readModuleName
        readSource inner
      else
        expect "\x7b"
        let _ ← inner (.exportNames [])

def readModuleItem : Reading Unit := do
  if ← isWord "import" then
    let next ← following
    if next.isPunct "(" || next.isPunct "." then
      let _ ← inner .expression
      let _ ← takeStatementEnd?
    else
      advance
      readImport inner
  else if ← takeWord? "export" then readExport inner
  else
    let _ ← inner (.statement true)

end Florin.Script
