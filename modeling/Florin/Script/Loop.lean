import Florin.Script.Declaration

/-! # Loops

The head of a loop counts, or goes over the keys or the values of something; only a loop over values
waits for them.
-/
namespace Florin.Script

variable (inner : Inner)

inductive LoopKind where
  | counted
  | keys
  | values
  deriving DecidableEq, Repr

def readCondition : Reading Unit := do
  expect "("
  let _ ← allowingIn (inner .expression)
  expect ")"

/-- A statement that no declaration stands for. -/
def readNested : Reading Unit := do
  let _ ← within (fun s => { s with isTop := false }) (inner (.statement false))

def readLoopBody : Reading Unit := do
  within (fun s => { s with breaks := true, continues := true }) (readNested inner)

def readWhile : Reading Unit := do
  readCondition inner
  readLoopBody inner

/-- A loop with its condition at the end, after which a semicolon may be left out anywhere. -/
def readDo : Reading Unit := do
  readLoopBody inner
  expectWord "while"
  readCondition inner
  let _ ← takeStatementEnd?

def readCounted : Reading LoopKind := do
  if !(← take? ";") then
    let _ ← allowingIn (inner .expression)
    expect ";"
  if !(← isPunct ")") then
    let _ ← allowingIn (inner .expression)
  return .counted

def readRange : Reading LoopKind := do
  let isOf ← isWord "of"
  advance
  let _ ← allowingIn (inner (if isOf then .assignment else .expression))
  return if isOf then .values else .keys

def isRange : Reading Bool := do return (← isWord "of") || (← isWord "in")

/-- A loop goes over one binding, which has no value before. -/
def checkLoopBindings : List Item → Reading Unit
  | [.part t] => do
    if t.isAssignment then keep (.statement .loopInitializer t.place)
  | _ :: .part t :: _ => keep (.statement .loopBindings t.place)
  | _ => return

def readLoopHead : Reading LoopKind := do
  match ← declarationWord? with
  | some keyword =>
    advance
    let (items, _) := (← inner (.declarations keyword true [])).parts
    if ← isRange then
      checkLoopBindings items
      return ← readRange inner
  | none =>
    if ← take? ";" then return ← readCounted inner
    let t ← within (fun s => { s with noIn := true }) (inner .expression)
    if ← isRange then
      asTarget t
      return ← readRange inner
  expect ";"
  readCounted inner

def readFor : Reading Unit := do
  let start ← place
  let isAwaited ← takeWord? "await"
  expect "("
  let head (s : Scope) : Scope := { s with isLoopHead := true, isAwaitedHead := isAwaited }
  let kind ← within head (readLoopHead inner)
  expect ")"
  readLoopBody inner
  if isAwaited && kind ≠ .values then failFor (.statement .loopAwait start)

end Florin.Script
