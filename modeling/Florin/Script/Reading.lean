import Florin.Script.Tree

/-! # Reading a script token by token

A reader looks at the current token and goes on to the next one. A fault that leaves nothing to go
on with stops the reading, though what encloses the reader can resume after it. Other faults are
kept, and the first of them counts if none stops the reading for good.
-/
namespace Florin.Script

/-- What the functions and statements around a place allow there. In the head of a loop the operator
`in` is not read. -/
structure Scope where
  inFunction : Bool := false
  isAsync : Bool := false
  isGenerator : Bool := false
  inParameters : Bool := false
  inStaticBlock : Bool := false
  inField : Bool := false
  breaks : Bool := false
  continues : Bool := false
  hasSuper : Bool := false
  hasTarget : Bool := false
  isLoopHead : Bool := false
  isAwaitedHead : Bool := false
  isTop : Bool := true
  noIn : Bool := false
  labels : List (List Char) := []
  deriving DecidableEq, Repr

/-- The current token with the place of the one before it and of its end, the first fault kept, and
whether an arrow function can start at the current token. -/
structure State where
  current : Lexeme
  before : Place
  beforeEnd : Place
  kept : Option Fault
  arrowFits : Bool
  scope : Scope
  deriving Repr

abbrev Reading := ExceptT Fault (StateM State)

def token : Reading Token := do return (← get).current.token

def place : Reading Place := do return (← get).current.start

def afterBreak : Reading Bool := do return (← get).current.afterBreak

/-- Keeps a fault that does not stop the reading. -/
def keep (f : Fault) : Reading Unit := modify fun s => { s with kept := s.kept.or (some f) }

def enter (next : Lexeme) : Reading Unit := do
  modify fun s => { s with
    current := next
    before := s.current.start
    beforeEnd := s.current.rest
    arrowFits := false }
  next.faults.forM keep

def advance : Reading Unit := do enter (lexeme (← get).current.rest)

def passFault : Reading Unit := do
  match ← token with
  | .fault f => keep f; advance
  | _ => return

def failFor (f : Fault) : Reading α := do
  passFault
  throw f

def fail (kind : FaultKind) : Reading α := do failFor ⟨kind, ← place⟩

def failExpression (f : ExpressionFault) : Reading α := fail (.expression f)

def unexpected (wanted : String) : Reading α := do fail (.unexpected (← token).shown wanted)

def refuseFault : Reading Unit := do
  match ← token with
  | .fault f =>
    advance
    throw f
  | _ => return

def following : Reading Lexeme := do
  let next := lexeme (← get).current.rest
  next.faults.forM keep
  return next

def isPunct (text : String) : Reading Bool := do return (← token) = .punct text.toList

def isWord (text : String) : Reading Bool := do return (← token) = .word text.toList

def Lexeme.isPunct (l : Lexeme) (text : String) : Bool := l.token = .punct text.toList

def Lexeme.isWord (l : Lexeme) (text : String) : Bool := l.token = .word text.toList

def take? (text : String) : Reading Bool := do
  if ← isPunct text then
    advance
    return true
  return false

def takeWord? (text : String) : Reading Bool := do
  if ← isWord text then
    advance
    return true
  return false

def failAt (wanted : String) : Reading α := do fail (.expected wanted.toList (← token).shown)

def expect (text : String) : Reading Unit := do
  if !(← take? text) then failAt text

/-- Takes the comma between two parts of a list, if the list goes on; gives back its place if the
list ends after it. -/
def separator (close : String) : Reading (Option Place) := do
  if ← isPunct close then return none
  expect ","
  if ← isPunct close then return some (← get).before
  return none

def expectWord (text : String) : Reading Unit := do
  if !(← takeWord? text) then failAt text

/-- A statement can end here: at a semicolon, before a closing brace, at the end of a line or of the
script. -/
def isStatementEnd : Reading Bool := do
  return (← isPunct ";") || (← isPunct "\x7d") || (← token) = .eof || (← afterBreak)

def takeStatementEnd? : Reading Bool := do
  if ← take? ";" then return true
  isStatementEnd

def expectStatementEnd : Reading Unit := do
  if !(← takeStatementEnd?) then failAt ";"

def scope : Reading Scope := do return (← get).scope

/-- Reads in another scope, which ends with the reading also where a fault stops it. -/
def within (change : Scope → Scope) (r : Reading α) : Reading α := do
  let outer ← scope
  modify fun s => { s with scope := change s.scope }
  let leave : Reading Unit := modify fun s => { s with scope := outer }
  try
    let a ← r
    leave
    return a
  catch f =>
    leave
    throw f

def allowingIn (r : Reading α) : Reading α := within (fun s => { s with noIn := false }) r

def keywords : List (List Char) :=
  ["break", "case", "catch", "class", "const", "continue", "debugger", "default", "delete", "do",
    "else", "export", "extends", "false", "finally", "for", "function", "if", "import", "in",
    "instanceof", "new", "null", "return", "super", "switch", "this", "throw", "true", "try",
    "typeof", "var", "void", "while", "with"].map String.toList

/-- Words that no variable has for its name in a module. -/
def reservedWords : List (List Char) :=
  keywords ++ ["await", "enum", "implements", "interface", "let", "package", "private", "protected",
    "public", "yield"].map String.toList

/-- Words that strict code reserves, where they are taken all the same. -/
def strictWords : List (List Char) :=
  ["enum", "implements", "interface", "let", "package", "private", "protected", "public", "static",
    "yield"].map String.toList

def isVariable : Reading Bool := do
  match ← token with
  | .word w => return !reservedWords.contains w
  | _ => return false

/-- Takes an identifier, and complains about a word that strict code reserves. -/
def identifier : Reading Tree := do
  let start ← place
  match ← token with
  | .word w =>
    if strictWords.contains w then
      advance
      keep (.name (.reserved w) start)
    else if w = "await".toList then
      fail (.name (if (← scope).inStaticBlock then .expected else .awaitName))
    else if keywords.contains w then fail (.name .expected)
    else
      if (← scope).inField && w = "arguments".toList then
        keep (.function .argumentsInField start)
      advance
    return .name start w
  | _ => fail (.name .expected)

/-- Takes the name of a variable that is declared. A lexical declaration has no `let` for one. -/
def boundName (isLexical : Bool) : Reading Tree := do
  if isLexical && (← isWord "let") then
    unexpected "let is reserved in const, let, class declaration"
  match ← token with
  | .word w =>
    if strictNames.contains w then
      let start ← place
      advance
      keep (.name .strictBinding start)
      return .name start w
    else identifier
  | _ => identifier

def anyName : Reading (List Char) := do
  match ← token with
  | .word w =>
    advance
    return w
  | _ => fail (.name .expected)

/-- Takes a private name, with no space after its hash. -/
def privateName : Reading (List Char) := do
  let start ← place
  expect "#"
  if (← place) ≠ (← get).beforeEnd then failFor (.expression .spaceAfterHash start)
  anyName

end Florin.Script
