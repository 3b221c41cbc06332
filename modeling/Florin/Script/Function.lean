import Florin.Script.Binding

/-! # Functions and the fields of objects

A function is read from its parameters on, in a scope of its own: what the code around it allows
does not hold inside. A field of an object is a value, a name, or a function of its own kind.
-/
namespace Florin.Script

variable (inner : Inner)

/-- The parameters of a function up to its closing parenthesis; the place is that of a rest
parameter before them. -/
def readParameters (soFar : List Item) (rest : Option Place) : Reading Tree := do
  if ← isPunct ")" then return .list [] soFar none
  refuseRest rest .restParameterBeforeOthers
  let start ← place
  if ← take? "..." then
    let target ← inner (.binding false)
    if ← take? "=" then
      let _ ← inner .assignment
      keep (.expression .restInitializer target.place)
    refuseComma (← separator ")")
    inner (.parameters (soFar ++ [.spread start target]) (some start))
  else
    let target ← inner .bindingElement
    let _ ← separator ")"
    inner (.parameters (soFar ++ [.part target]) rest)

def checkAccessor (accessor : Option (Accessor × Place)) (items : List Item) : Reading Unit := do
  match accessor with
  | none => return
  | some (.getter, place) =>
    if !items.isEmpty then keep (.function .getterParameter place)
  | some (.setter, place) =>
    if items.length ≠ 1 then keep (.function .setterParameter place)
    match items with
    | .spread start _ :: _ => keep (.function .setterRest start)
    | _ => return

def parameterScope (form : FunctionForm) (s : Scope) : Scope :=
  { s with
    isAsync := form.isAsync
    isGenerator := form.isGenerator
    inParameters := true
    inFunction := false }

/-- An arrow function has the target of the function around it. -/
def bodyScope (form : FunctionForm) (isArrow : Bool) (s : Scope) : Scope :=
  { s with
    inFunction := true
    isAsync := form.isAsync
    isGenerator := form.isGenerator
    inStaticBlock := false
    breaks := false
    continues := false
    hasTarget := s.hasTarget || !isArrow
    isTop := false
    labels := [] }

def isStrictDirective (text : List Char) : Bool :=
  "\x22use strict\x22".toList.isPrefixOf text || "\x27use strict\x27".toList.isPrefixOf text

def directiveAt : Option Place → Tree
  | some place => .leaf place .literal
  | none => .leaf [] .other

/-- The statements at the start of a body that are strings alone; gives back the first directive for
strict code among them. -/
def readDirectives (strict : Option Place) : Reading Tree := do
  match ← token with
  | .string _ =>
    let text := (← get).current.start
    let s ← inner (.statement true)
    if s.leaf? ≠ some .literal then return directiveAt strict
    inner (.directives (strict.or (if isStrictDirective text then some text else none)))
  | _ => return directiveAt strict

/-- The body of a function in braces. A directive does not make parameters strict that are more than
names. -/
def readBody (isSimple : Bool) : Reading Unit := do
  expect "\x7b"
  let directive ← inner (.directives none)
  let _ ← inner .statements
  if !isSimple && directive.leaf? = some .literal then
    keep (.function .strictDirective directive.place)

def readFunctionRest (form : FunctionForm) : Reading Tree := do
  expect "("
  let (items, _) := (← within (parameterScope form) (inner (.parameters [] none))).parts
  checkAccessor form.accessor items
  expect ")"
  within (bodyScope form false) (readBody inner (areSimple items))
  other

def readArrowBody (isAsync isSimple : Bool) : Reading Tree := do
  within (bodyScope ⟨isAsync, false, none⟩ true) do
    if ← isPunct "\x7b" then readBody inner isSimple
    else
      let _ ← inner .assignment
  other

def readMethod (form : FunctionForm) : Reading Unit := do
  let _ ← within (fun s => { s with hasSuper := true, inField := false })
    (inner (.functionRest form))

def readMarkedMethod (mark : List Char) : Reading Unit := do
  let isAsync : Bool := mark = "async".toList
  let isGenerator ← if isAsync then take? "*" else pure false
  let start ← place
  let _ ← readKey inner
  let accessor := if mark = "get".toList then some (.getter, start)
    else if mark = "set".toList then some (.setter, start)
    else none
  readMethod inner ⟨isAsync, isGenerator, accessor⟩

def readNamedField (start : Place) (name : List Char) : Reading Field := do
  if ← take? "?" then keep (.expression .optionalField (← get).before)
  if (← isPunct "=") || (← isPunct ",") || (← isPunct "\x7d") then
    refuseReserved start name
    if !(← take? "=") then return .shorthand start name
    let _ ← allowingIn (inner .assignment)
    return .initialized start name
  if ["get", "set", "async"].any (·.toList = name) then
    readMarkedMethod inner name
    return .method start
  unexpected "... , *,  (, [, :, , ?, = or an identifier"

def readField : Reading Field := do
  let start ← place
  if ← take? "..." then return .spread start (← allowingIn (inner .assignment))
  if ← take? "*" then
    let _ ← readKey inner
    readMethod inner ⟨false, true, none⟩
    return .method start
  let key ← readKey inner
  if ← take? ":" then return .pair (← allowingIn (inner .assignment))
  if ← isPunct "(" then
    readMethod inner .plain
    return .method start
  match key with
  | .word name => readNamedField inner start name
  | _ => unexpected "identifier"

def readFields (start : Place) (soFar : List Field) (comma : Option Place) : Reading Tree := do
  if ← take? "\x7d" then return .record start soFar comma
  let field ← readField inner
  let comma ← separator "\x7d"
  inner (.fields start (soFar ++ [field]) comma)

end Florin.Script
