import Florin.Script.Expression
import Florin.Script.Loop

/-! # Statements

A statement that is an expression alone gives back that expression, so that a directive is known by
it. A jump leaves a loop or a statement that has its label.
-/
namespace Florin.Script

variable (inner : Inner)

/-- Statements up to a closing brace, which only the end of the script can be missing before. -/
def readStatements : Reading Tree := do
  if ← take? "\x7d" then return ← other
  if (← token) = .eof then
    keep ⟨.expected ['\x7d'] (← token).shown, ← place⟩
    return ← other
  let _ ← inner (.statement true)
  inner .statements

def readBlock : Reading Tree := do
  expect "\x7b"
  within (fun s => { s with isTop := false }) (inner .statements)

def readBreak (label : Option (List Char)) (start : Place) : Reading Unit := do
  let s ← scope
  match label with
  | some name =>
    if !s.labels.contains name then keep (.statement .breakLabel start)
    else if !s.breaks then keep (.statement .breakPlace start)
  | none =>
    if !s.breaks then keep (.statement .breakPlace start)

def readContinue (label : Option (List Char)) (start : Place) : Reading Unit := do
  let s ← scope
  if !s.continues then keep (.statement .continuePlace start)
  else if label.any fun name => !s.labels.contains name then
    keep (.statement .continueLabel start)

def readLabel? : Reading (Option (List Char)) := do
  if ← takeStatementEnd? then return none
  let name ← identifier
  expectStatementEnd
  match name with
  | .name _ text => return some text
  | _ => return none

def readIf : Reading Unit := do
  readCondition inner
  readNested inner
  if ← takeWord? "else" then readNested inner

def readReturn (start : Place) : Reading Unit := do
  if !(← isStatementEnd) then
    let _ ← allowingIn (inner .expression)
  expectStatementEnd
  if !(← scope).inFunction then keep (.function .returnOutside start)

def readThrow : Reading Unit := do
  if ← afterBreak then fail (.statement .lineBreakAfterThrow)
  let _ ← allowingIn (inner .expression)
  expectStatementEnd

def readCases (hasDefault : Bool) : Reading Tree := do
  if ← takeWord? "case" then
    let _ ← allowingIn (inner .expression)
    expect ":"
    let _ ← within (fun s => { s with isTop := false }) (inner .caseBody)
    inner (.cases hasDefault)
  else if ← takeWord? "default" then
    if hasDefault then fail (.statement .repeatedDefault)
    expect ":"
    let _ ← within (fun s => { s with isTop := false }) (inner .caseBody)
    inner (.cases true)
  else
    expect "\x7d"
    other

def readCaseBody : Reading Tree := do
  if (← isWord "case") || (← isWord "default") || (← isPunct "\x7d") then return ← other
  let _ ← inner (.statement true)
  inner .caseBody

def readSwitch : Reading Unit := do
  readCondition inner
  expect "\x7b"
  let _ ← within (fun s => { s with breaks := true }) (inner (.cases false))

def readCatch? : Reading Bool := do
  if !(← takeWord? "catch") then return false
  if ← take? "(" then
    let _ ← inner (.binding false)
    expect ")"
  let _ ← inner .block
  return true

def readFinally? : Reading Bool := do
  if !(← takeWord? "finally") then return false
  let _ ← inner .block
  return true

def readTry : Reading Unit := do
  let _ ← inner .block
  let start ← place
  let hasCatch ← readCatch? inner
  let hasFinally ← readFinally? inner
  if !hasCatch && !hasFinally then keep (.statement .semicolon start)

/-- What follows nothing that could be tried; the parts after it are read as far as they go. -/
def readHandlers : Reading Unit := do
  keep (.statement .semicolon (← place))
  let _ ← try readCatch? inner catch _ => pure false
  let _ ← try readFinally? inner catch _ => pure false

def readWith (start : Place) : Reading Unit := do
  keep (.statement .withStatement start)
  readCondition inner
  readNested inner

/-- The statement that a label belongs to. A function in strict code has no label. -/
def readLabelled (start : Place) (name : List Char) : Reading Unit := do
  let isRepeated := (← scope).labels.contains name
  let own (s : Scope) : Scope := { s with breaks := true, labels := name :: s.labels }
  within own do
    if ← isWord "function" then
      let functionPlace ← place
      let isGenerator := (← following).isPunct "*"
      let _ ← readFunction inner false true true
      keep (.statement .labelledFunction functionPlace)
      if isGenerator then keep (.statement .labelledGenerator functionPlace)
    else readNested inner
  if isRepeated then keep (.statement (.repeatedLabel name) start)

def isPunctOperator : Reading Bool := do
  match ← token with
  | .punct p => return (precedence? p).isSome
  | _ => return false

/-- The end of a statement that is an expression. An operator that nothing can follow on misses a
semicolon before it, and is read on all the same. -/
def finishExpression (t : Tree) : Reading Tree := do
  if ← takeStatementEnd? then return t
  if !(← isPunctOperator) then fail (.statement .incomplete)
  keep (.statement .semicolon (← place))
  let _ ← allowingIn (inner (.operationRest 0 t))
  other

def readExpressionStatement : Reading Tree := do
  let t ← allowingIn (inner .expression)
  match t with
  | .name start text =>
    if ← take? ":" then
      readLabelled inner start text
      other
    else finishExpression inner t
  | _ => finishExpression inner t

/-- An expression that waits for its first operand. No end of a statement is asked for. -/
def readAwaitStatement (start : Place) : Reading Unit := do
  advance
  let t ← readAwaited inner start
  let _ ← allowingIn (inner (.operationRest 0 t))
  let _ ← takeStatementEnd?

/-- An import or an export that is no statement. A call of `import` is an expression. -/
def readModuleWord : Reading Unit := do
  let next ← following
  if (← isWord "import") && (next.isPunct "(" || next.isPunct ".") then
    let _ ← inner .expression
    let _ ← takeStatementEnd?
  else fail (.statement .moduleStatement)

/-- A function or a class, which only a place for declarations has room for. -/
def refuseDeclaration (declares : Bool) : Reading Unit := do
  if !declares then keep (.statement .declaration (← place))

def startsAsyncFunction : Reading Bool := do
  if !(← isWord "async") then return false
  let next ← following
  return next.isWord "function" && !next.afterBreak

def readAsyncFunction (isNamed : Bool) : Reading Unit := do
  advance
  let _ ← readFunction inner true isNamed true

def readKeyword? (w : List Char) (declares : Bool) : Reading Bool := do
  let start ← place
  match String.ofList w with
  | "import" | "export" => readModuleWord inner
  | "break" =>
    advance
    readBreak (← readLabel?) start
  | "continue" =>
    advance
    readContinue (← readLabel?) start
  | "debugger" => advance; expectStatementEnd
  | "do" => advance; readDo inner
  | "for" => advance; readFor inner
  | "function" =>
    refuseDeclaration declares
    let _ ← readFunction inner false true true
  | "class" =>
    refuseDeclaration declares
    advance
    let _ ← inner (.classRest true)
  | "if" => advance; readIf inner
  | "return" => advance; readReturn inner start
  | "switch" => advance; readSwitch inner
  | "throw" => advance; readThrow inner
  | "catch" | "finally" => readHandlers inner
  | "try" => advance; readTry inner
  | "with" => advance; readWith inner start
  | "while" => advance; readWhile inner
  | _ => return false
  return true

def readWordStatement (w : List Char) (declares : Bool) : Reading Tree := do
  if w = "await".toList && (declares || (← scope).isTop) then
    readAwaitStatement inner (← place)
    return ← other
  if ← readKeyword? inner w declares then return ← other
  match ← declarationWord? with
  | some keyword =>
    if declares || keyword = "var".toList then
      readDeclaration inner keyword
      return ← other
  | none => pure ()
  if ← startsAsyncFunction then
    readAsyncFunction inner true
    other
  else readExpressionStatement inner

def readStatement (declares : Bool) : Reading Tree := do
  match ← token with
  | .punct ['\x7b'] => inner .block
  | .punct [';'] => advance; other
  | .word w => readWordStatement inner w declares
  | _ => readExpressionStatement inner

end Florin.Script
