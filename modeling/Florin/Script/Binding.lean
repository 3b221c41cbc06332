import Florin.Script.Phrase

/-! # Bindings

What a declaration or a parameter binds: a name, or a pattern with the names of properties in it. A
rest binding stands at the end, with no comma after it.
-/
namespace Florin.Script

variable (inner : Inner)

/-- What names a property; a text of its own is told apart from a number and a computed name. -/
inductive Key where
  | word (text : List Char)
  | string (text : List Char)
  | privateName (text : List Char)
  | other
  deriving DecidableEq, Repr

def Key.isWord (key : Key) (text : String) : Bool := key = .word text.toList

def readKey : Reading Key := do
  match ← token with
  | .word w => advance; return .word w
  | .string text => advance; return .string text
  | .number | .wholeNumber => advance; return .other
  | .punct ['['] =>
    advance
    let _ ← allowingIn (inner .assignment)
    expect "]"
    return .other
  | _ => unexpected "identifier, string literal, numeric literal or [ for the computed key"

def readBinding (isLexical : Bool) : Reading Tree := do
  let start ← place
  match ← token with
  | .word _ => boundName isLexical
  | .punct ['['] =>
    advance
    let _ ← inner (.arrayBindings none)
    return .leaf start .pattern
  | .punct ['\x7b'] =>
    advance
    let _ ← inner (.objectBindings [])
    return .leaf start .pattern
  | _ =>
    refuseFault
    unexpected "yield, an identifier, [ or \x7b"

def readBindingElement : Reading Tree := do
  let start ← place
  let target ← inner (.binding false)
  if !(← take? "=") then return target
  let _ ← allowingIn (inner .assignment)
  return .assignment start true target

/-- Complains about a rest binding of which the end of the list is not here. -/
def refuseRest (rest : Option Place) (f : ExpressionFault) : Reading Unit := do
  match rest with
  | some place => keep (.expression f place)
  | none => return

/-- The elements of an array pattern with its closing bracket; the place is that of a rest binding
before them. -/
def readArrayBindings (rest : Option Place) : Reading Tree := do
  if ← take? "]" then return ← other
  if ← take? "," then return ← inner (.arrayBindings rest)
  refuseRest rest .restBeforeOthers
  let start ← place
  if ← take? "..." then
    let _ ← inner (.binding false)
    refuseComma (← separator "]")
    inner (.arrayBindings (some start))
  else
    let _ ← inner .bindingElement
    let _ ← separator "]"
    inner (.arrayBindings rest)

def refuseReserved (start : Place) (name : List Char) : Reading Unit := do
  if reservedWords.contains name then keep (.name .shorthand start)

def readFieldBinding : Reading Field := do
  let start ← place
  if ← take? "..." then return .spread start (← inner (.binding false))
  match ← readKey inner with
  | .word name =>
    if ← take? ":" then return .pair (← inner .bindingElement)
    if ← take? "=" then
      let _ ← allowingIn (inner .assignment)
      return .initialized start name
    refuseReserved start name
    return .shorthand start name
  | _ =>
    if ← take? ":" then return .pair (← inner .bindingElement)
    unexpected "an identifier"

def checkRestBindings (comma : Option Place) : List Field → Reading Unit
  | [] => return
  | [.spread _ t] => do
    if !t.isName then failFor (.expression .restName (← get).before)
    refuseComma comma
  | .spread place _ :: fields => do
    keep (.expression .restBeforeOthers place)
    checkRestBindings comma fields
  | _ :: fields => checkRestBindings comma fields

def readObjectBindings (soFar : List Field) : Reading Tree := do
  if ← take? "\x7d" then return ← other
  let fields := soFar ++ [← readFieldBinding inner]
  let comma ← separator "\x7d"
  if ← take? "\x7d" then
    checkRestBindings comma fields
    other
  else inner (.objectBindings fields)

end Florin.Script
