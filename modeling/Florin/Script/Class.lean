import Florin.Script.Function

/-! # Classes

A class has at most one constructor, which is a plain function and belongs to the instances. The
words before the name of a member are names themselves where nothing else can follow them.
-/
namespace Florin.Script

variable (inner : Inner)

def Key.isConstructor (key : Key) : Bool :=
  key = .word "constructor".toList || key = .string "constructor".toList

def readMemberKey : Reading Key := do
  let start ← place
  if !(← isPunct "#") then return ← readKey inner
  let name ← privateName
  if name = "constructor".toList then keep (.function .privateConstructor start)
  return .privateName name

/-- A member ends here that is no function. -/
def endsField : Reading Bool := do
  return (← isPunct "=") || (← isPunct "\x7d") || (← isPunct ";")

def readInstanceField (start : Place) (key : Key) : Reading Unit := do
  if key.isConstructor then failFor (.function .fieldConstructor start)
  within (fun s => { s with inField := true, noIn := false }) do
    if ← take? "=" then
      let _ ← inner .assignment
    if !(← takeStatementEnd?) then keep (.statement .semicolon (← place))

def readStaticBlock : Reading Unit := do
  let own (s : Scope) : Scope :=
    { s with inStaticBlock := true, inField := true, breaks := false, continues := false }
  let _ ← within own (inner .block)

/-- A method or the constructor, from its parameters on; says whether it is the constructor. The
place is that of the word `static` before it. -/
def readPlainMethod (key : Key) (staticPlace : Option Place) : Reading Bool := do
  if key.isConstructor then
    match staticPlace with
    | some place => keep (.function .staticConstructor place)
    | none => pure ()
  readMethod inner .plain
  return key.isConstructor

def readAsyncMethod : Reading Unit := do
  let isGenerator ← take? "*"
  let start ← place
  if (← readMemberKey inner).isConstructor then failFor (.function .asyncConstructor start)
  readMethod inner ⟨true, isGenerator, none⟩

def readAccessor (accessor : Accessor) (start : Place) : Reading Unit := do
  if (← readMemberKey inner).isConstructor then keep (.function .accessorConstructor start)
  readMethod inner ⟨false, false, some (accessor, start)⟩

def Key.accessor? (key : Key) : Option Accessor :=
  if key.isWord "get" then some .getter
  else if key.isWord "set" then some .setter
  else none

def readNamedMember (staticPlace : Option Place) : Reading Bool := do
  let start ← place
  let key ← readMemberKey inner
  if ← isPunct "(" then return ← readPlainMethod inner key staticPlace
  let startsGenerator := (← afterBreak) && (← isPunct "*")
  let accessor? := if (← endsField) || startsGenerator then none else key.accessor?
  match accessor? with
  | some accessor => readAccessor inner accessor start
  | none =>
    if (← isPunct "=") || (← isStatementEnd) then readInstanceField inner start key
    else if key.isWord "async" then readAsyncMethod inner
    else unexpected "* for generator, private key, identifier or async"
  return false

def readMemberRest (start : Place) (staticPlace : Option Place) : Reading Bool := do
  if staticPlace.isSome && (← isPunct "\x7b") then
    readStaticBlock inner
    return false
  if ← take? "*" then
    if (← readMemberKey inner).isConstructor then keep (.function .generatorConstructor start)
    readMethod inner ⟨false, true, none⟩
    return false
  readNamedMember inner staticPlace

/-- A member of a class; says whether it is the constructor. -/
def readMember : Reading Bool := do
  let start ← place
  if !(← takeWord? "static") then return ← readMemberRest inner start none
  if ← isPunct "(" then
    readMethod inner .plain
    return false
  if ← endsField then
    readInstanceField inner start (.word "static".toList)
    return false
  readMemberRest inner start (some start)

def readClassMembers (hasConstructor : Bool) : Reading Tree := do
  if ← take? "\x7d" then return ← other
  if ← take? ";" then return ← inner (.classMembers hasConstructor)
  let start ← place
  let isConstructor ← readMember inner
  if hasConstructor && isConstructor then keep (.function .repeatedConstructor start)
  inner (.classMembers (hasConstructor || isConstructor))

def readClassRest (isNamed : Bool) : Reading Tree := do
  if isNamed || (← isVariable) then
    let _ ← boundName true
  if ← takeWord? "extends" then
    let _ ← inner .leftHand
  if ← takeWord? "extends" then
    keep (.function .secondParent (← get).before)
    let _ ← inner .leftHand
  expect "\x7b"
  within (fun s => { s with hasTarget := true, hasSuper := true }) (inner (.classMembers false))

end Florin.Script
