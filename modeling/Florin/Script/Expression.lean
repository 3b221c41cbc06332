import Florin.Script.Phrase

/-! # Expressions

The readers of expressions from the loosest to the tightest. An operand that is missing before an
operator, or after one that stands before its operand, does not stop the reading.
-/
namespace Florin.Script

variable (inner : Inner)

def readExpression : Reading Tree := do
  let start ← place
  let first ← inner .assignment
  if ← take? "," then
    let _ ← inner .expression
    return .leaf start .other
  return first

def assignmentOperators : List (List Char) :=
  ["=", "+=", "-=", "*=", "/=", "%=", "**=", "<<=", ">>=", ">>>=", "&=", "|=", "^=", "&&=", "||=",
    "??="].map String.toList

def startsValue : Token → Bool
  | .word w => w = "super".toList || ["this", "null", "true", "false", "function", "class", "new",
      "typeof", "void", "delete", "import", "await", "yield"].any (·.toList = w) ||
      !keywords.contains w
  | .punct p => ["(", "[", "\x7b", "+", "-", "!", "~", "++", "--", "*", "/", "/=", "<", "#"].any
      (·.toList = p)
  | .number | .wholeNumber | .string _ | .template _ => true
  | .fault _ => true
  | .eof => false

def readYield : Reading Tree := do
  let start ← place
  advance
  let s ← scope
  if s.inParameters && !s.inFunction then failFor (.function .yieldInParameters start)
  if !(← isStatementEnd) && startsValue (← token) then
    let _ ← take? "*"
    let _ ← inner .assignment
  return .leaf start .other

def startsArrow : Token → Bool
  | .word w => !keywords.contains w && w ≠ "await".toList && w ≠ "let".toList
  | .punct p => p = ['(']
  | _ => false

def assignmentRest (start : Place) (target : Tree) (operator : List Char) : Reading Tree := do
  let isPlain : Bool := operator = ['=']
  if isPlain then asTarget target else checkAssignable target
  let isPattern := match target with
    | .list _ _ _ | .record _ _ _ => isPlain
    | _ => false
  if !isPattern && !target.isTarget then failFor (.expression .invalidTarget target.place)
  advance
  let _ ← inner .assignment
  return .assignment start isPlain target

def readAssignment : Reading Tree := do
  if (← scope).isGenerator && (← isWord "yield") then return ← readYield inner
  refuseFault
  let start ← place
  let first ← token
  modify fun s => { s with arrowFits := startsArrow first }
  let c ← inner .conditional
  if c.isArrow || c.endsAssignment then return c
  match ← token with
  | .punct p =>
    if assignmentOperators.contains p then assignmentRest inner start c p else return c
  | _ => return c

def readConditional : Reading Tree := do
  let start ← place
  let test ← inner .operation
  if test.isArrow then return test
  if !(← take? "?") then return test
  let _ ← allowingIn (inner .assignment)
  expect ":"
  let _ ← inner .assignment
  return .leaf start .conditional

/-- The binary operators by how tightly they bind, from the loosest. -/
def binaryOperators : List (List String) := [
  ["??", "||"], ["&&"], ["|"], ["^"], ["&"], ["==", "!=", "===", "!=="],
  ["<", ">", "<=", ">=", "instanceof", "in"], ["<<", ">>", ">>>"], ["+", "-"], ["*", "/", "%"],
  ["**"]]

def precedence? (operator : List Char) : Option Nat :=
  (binaryOperators.findIdx? fun ops => ops.any fun o => o.toList = operator).map (· + 1)

def operator? : Reading (Option (List Char)) := do
  match ← token with
  | .punct p => return if (precedence? p).isSome then some p else none
  | .word w =>
    if w = "instanceof".toList then return some w
    if w = "in".toList && !(← scope).noIn then return some w
    return none
  | _ => return none

def readOperation : Reading Tree := do
  let left ←
    try inner .unary
    catch f =>
      -- An operator without a first operand: the reading goes on behind it.
      if (← operator?).isNone then throw f
      keep (.expression .expected (← place))
      pure (.leaf f.place .invalid)
  if left.isArrow then return left
  inner (.operationRest 0 left)

/-- Operators that mix with `??` only in parentheses are told at the operation on the wrong side. -/
def checkMixed (operator : List Char) (left right : Tree) : Reading Unit := do
  if operator = "??".toList then
    if left.isOperation ["&&", "||"] then keep (.expression .mixedNullish left.place)
    if right.isOperation ["&&", "||"] then keep (.expression .mixedNullish right.place)
  else if ["&&", "||"].any (·.toList = operator) && left.isOperation ["??"] then
    keep (.expression .mixedNullish left.place)

/-- The operators and operands after a first operand that bind more tightly than asked for. Powers
group to the right, and their base has no operator before it. -/
def readOperationRest (least : Nat) (left : Tree) : Reading Tree := do
  match ← operator? with
  | none => return left
  | some operator =>
    let strength := (precedence? operator).getD 0
    if strength ≤ least then return left
    let isPower : Bool := operator = "**".toList
    advance
    if isPower && (left.leaf? = some .unary || left.leaf? = some .await) then
      failExpression .powerOfUnary
    let operand ← inner .unary
    let right ← inner (.operationRest (if isPower then strength - 1 else strength) operand)
    checkMixed operator left right
    inner (.operationRest least (.binary left.place operator))

def readAwaited (start : Place) : Reading Tree := do
  if ← isPunct "*" then fail (.function .awaitStar)
  let s ← scope
  let closes := (← isPunct ")") || (← isPunct "]") || (← isPunct ",")
  let endsHere := (← isStatementEnd) || closes
  -- Where nothing is left to wait for, the word is a name.
  if !s.isAsync && endsHere then
    keep (.name .awaitName start)
    return .name start "await".toList
  if s.inFunction && !s.isAsync then keep (.function .awaitOutside start)
  if s.inParameters && !s.inFunction then keep (.function .awaitInParameters start)
  let _ ← inner .unary
  return .leaf start .await

def signOperators : List (List Char) := ["+", "-", "!", "~"].map String.toList

def operatorWords : List (List Char) := ["delete", "void", "typeof"].map String.toList

def stepOperators : List (List Char) := ["++", "--"].map String.toList

/-- An operator before its operand. A fault in the operand does not stop the reading. -/
def readPrefixed (start : Place) (isDelete : Bool) : Reading Tree := do
  advance
  let operand ←
    try inner .unary
    catch f =>
      keep f
      pure (.leaf f.place .invalid)
  if isDelete && operand.isName then keep (.expression .deletedName operand.place)
  return .leaf start .unary

def readStepped (start : Place) : Reading Tree := do
  let e ← inner .leftHand
  if e.isArrow then return e
  if ← afterBreak then return e
  match ← token with
  | .punct p =>
    if !stepOperators.contains p then return e
    checkAssignable e
    advance
    return .leaf start .update
  | _ => return e

def readUnary : Reading Tree := do
  let start ← place
  match ← token with
  | .punct p =>
    if stepOperators.contains p then
      advance
      checkAssignable (← inner .unary)
      return .leaf start .update
    if signOperators.contains p then readPrefixed inner start false else readStepped inner start
  | .word w =>
    if operatorWords.contains w then readPrefixed inner start (w = "delete".toList)
    else if w = "await".toList then
      advance
      readAwaited inner start
    else readStepped inner start
  | _ => readStepped inner start

def readImported (start : Place) (allowCall : Bool) : Reading Tree := do
  if ← take? "." then
    let name ← anyName
    if name = "meta".toList then inner (.callRest (.leaf start .other) allowCall)
    else if name = "defer".toList || name = "source".toList then
      inner (.callRest (.leaf start .importBase) allowCall)
    else unexpected "meta"
  else inner (.callRest (.leaf start .importBase) allowCall)

def readLeftHand : Reading Tree := do
  let start ← place
  if ← takeWord? "super" then return ← inner (.callRest (.leaf start .superBase) true)
  if ← takeWord? "import" then return ← readImported inner start true
  let callee ← inner .constructed
  if callee.isArrow || callee.leaf? = some .constructBare then return callee
  if ← take? "(" then
    let _ ← inner (.arguments true)
    inner (.callRest (.leaf start .call) true)
  else return callee

def checkConstructor (callee : Tree) : Reading Unit := do
  if callee.leaf? = some .chain || callee.leaf? = some .chainMember then
    failFor (.expression .constructedChain callee.place)

/-- What follows the word `new`. Without arguments nothing goes on with it. -/
def readNew (start : Place) : Reading Tree := do
  if ← take? "." then
    if !(← takeWord? "target") then unexpected "target"
    let s ← scope
    if !s.hasTarget && !s.inParameters then keep (.expression .newTarget start)
    inner (.callRest (.leaf start .other) false)
  else
    let callee ← inner .constructed
    if callee.isArrow then return callee
    checkConstructor callee
    if ← take? "(" then
      let _ ← inner (.arguments true)
      inner (.callRest (.leaf start .construct) false)
    else return .leaf start .constructBare

/-- An expression with its members, without its calls. -/
def readConstructed : Reading Tree := do
  let start ← place
  if ← takeWord? "new" then readNew inner start
  else if ← takeWord? "super" then inner (.callRest (.leaf start .superBase) false)
  else if ← takeWord? "import" then readImported inner start false
  else
    let e ← inner .primary
    if e.isArrow then return e
    inner (.callRest e false)

def memberOf (callee : Tree) (isChain : Bool) : Reading Tree := do
  let start := callee.place
  if isChain then return .leaf start .chain
  match callee.leaf? with
  | some .superBase =>
    if !(← scope).hasSuper then keep (.expression .superPlace start)
    return .leaf start .superMember
  | some .chain => return .leaf start .chainMember
  | _ => return .leaf start (.member callee.memberIsAssignable)

/-- Nothing goes on with the callee, which `super` and `import` cannot do without. -/
def finishCallee (callee : Tree) (allowCall : Bool) : Reading Tree := do
  match callee.leaf? with
  | some .superBase => failExpression (if allowCall then .superPlace else .superCall)
  | some .importBase => failExpression .importPlace
  | _ => return callee

def readCallRest (callee : Tree) (allowCall : Bool) : Reading Tree := do
  let start := callee.place
  let isChain ← take? "?."
  if ← take? "[" then
    let _ ← allowingIn (inner .expression)
    expect "]"
    return ← inner (.callRest (← memberOf callee isChain) allowCall)
  if (isChain || allowCall || callee.leaf? = some .importBase) && (← isPunct "(") then
    if isChain && callee.leaf? = some .superBase then failExpression .superChain
    advance
    let _ ← inner (.arguments true)
    return ← inner (.callRest (.leaf start (if isChain then .chain else .call)) allowCall)
  if isChain || (← take? ".") then
    let _ ← if ← isPunct "#" then privateName else anyName
    return ← inner (.callRest (← memberOf callee isChain) allowCall)
  match ← token with
  | .template _ =>
    if callee.leaf? = some .superBase then return ← finishCallee callee allowCall
    let _ ← inner (.template true)
    if callee.leaf? = some .chain then keep (.expression .taggedChain start)
    inner (.callRest (.leaf start .other) allowCall)
  | _ => finishCallee callee allowCall

def readArguments (isFirst : Bool) : Reading Tree := do
  if ← take? ")" then return ← other
  if !isFirst then
    expect ","
    if ← take? ")" then return ← other
  let _ ← take? "..."
  let _ ← allowingIn (inner .assignment)
  inner (.arguments false)

/-- The parts of a template from the current token on. Without a tag its escapes have to fit. -/
def readTemplate (isTagged : Bool) : Reading Tree := do
  match ← token with
  | .template part =>
    match part.escapeFault with
    | some f => if !isTagged then throw f
    | none => pure ()
    advance
    if part.ends then return ← other
    let _ ← allowingIn (inner .expression)
    if !(← isPunct "\x7d") then unexpected "\x60\x7d\x60"
    let current := (← get).current
    let (next, s) := templateAt current.start
    modify fun t => { t with current := { current with token := next, rest := s.rest } }
    inner (.template isTagged)
  | .fault f => throw f
  | _ => unexpected "template token"

/-- Reads the current token again as a regular expression. -/
def readRegex : Reading Tree := do
  let start ← place
  match regexBodyRest? false ((← get).current.start.drop 1) with
  | none => throw (.expression .expected start)
  | some rest =>
    let flags := rest.takeWhile isWordPart
    modify fun s => { s with current := { s.current with rest := rest.drop flags.length } }
    advance
    let known := "dgimsuvy".toList
    if flags.any fun c => !known.contains c then keep (.expression .unknownFlags start)
    match known.find? fun c => 1 < flags.count c with
    | some c => keep (.expression (.repeatedFlag c) start)
    | none => pure ()
    return .leaf start .literal

def readItem : Reading Item := do
  let start ← place
  if ← take? "..." then return .spread start (← inner .assignment)
  return .part (← inner .assignment)

/-- The items in parentheses after those read so far, with the closing parenthesis. An arrow at the
start of a line still belongs to a name alone. -/
def readParenthesized (soFar : List Item) (comma : Option Place) : Reading Tree := do
  if ← take? ")" then return .list [] soFar comma
  let start ← place
  let items := soFar ++ [← readItem inner]
  let items ←
    if ← take? "=>" then
      match items with
      | .part (.name _ _) :: _ =>
        asParameters items none
        let _ ← inner (.arrowBody false (areSimple items))
        pure (items ++ [.part (.leaf start .arrow)])
      | _ => pure items
    else pure items
  let comma ← separator ")"
  inner (.parenthesized items comma)

/-- Initializers in an object literal in parentheses, which is no pattern. -/
def lateInitializers (items : List Item) : List Place :=
  items.flatMap fun item =>
    match item with
    | .part (.record _ fields _) | .spread _ (.record _ fields _) =>
      fields.filterMap fun field =>
        match field with
        | .initialized place _ => some place
        | _ => none
    | _ => []

/-- What the items in parentheses are when no arrow follows. -/
def groupOf (start : Place) (items : List Item) : Reading Tree := do
  if items.isEmpty then failFor (.expression .emptyParentheses start)
  let spread := items.findSome? fun item =>
    match item with
    | .spread _ t => some t.place
    | _ => none
  match spread with
  | some place => failFor (.expression .spreadInParentheses place)
  | none => pure ()
  match items with
  | [.part t] => return .group start t
  | _ => return .group start (.leaf start .other)

/-- An expression in parentheses, or an arrow function whose parameters stand in them. The word
`async` may stand before them, at the given place. -/
def readParentheses (asyncPlace : Option Place) (arrowFits : Bool) : Reading Tree := do
  let start := asyncPlace.getD (← place)
  expect "("
  let (items, comma) := (← allowingIn (inner (.parenthesized [] none))).parts
  if ← isPunct "=>" then
    if ← afterBreak then failFor (.expression .lineBreakBeforeArrow start)
    if !arrowFits then failFor (.expression .arrowPlace start)
    advance
    asParameters items comma
    let _ ← inner (.arrowBody asyncPlace.isSome (areSimple items))
    return .leaf start .arrow
  (lateInitializers items).forM fun place => keep (.expression .lateInitializer place)
  if asyncPlace.isSome then return .leaf start .call
  groupOf start items

def readElements (start : Place) (soFar : List Item) (comma : Option Place) : Reading Tree := do
  if ← take? "]" then return .list start soFar comma
  if ← take? "," then return ← inner (.elements start (soFar ++ [.hole]) comma)
  let item ← allowingIn (readItem inner)
  let comma ← separator "]"
  inner (.elements start (soFar ++ [item]) comma)

/-- What follows a name: the rest of an arrow function of which it is the parameter, or which it
marks as asynchronous. -/
def readAfterName (name : Tree) (isAsync arrowFits : Bool) : Reading Tree := do
  if !arrowFits || (← afterBreak) then return name
  let start := name.place
  if isAsync && (← isVariable) then
    let s ← scope
    if s.isLoopHead && (← isWord "of") && !(← following).isPunct "=>" then
      if !s.isAwaitedHead then keep (.statement .loopAsync start)
      return name
    let _ ← boundName false
    expect "=>"
    let _ ← inner (.arrowBody true true)
    return .leaf start .arrow
  if ← take? "=>" then
    asParameters [.part name] none
    let _ ← inner (.arrowBody false true)
    return .leaf start .arrow
  return name

def readFunction (isAsync isNamed isDeclaration : Bool) : Reading Tree := do
  let start ← place
  expectWord "function"
  let isGenerator ← take? "*"
  let form : FunctionForm := ⟨isAsync, isGenerator, none⟩
  let own (s : Scope) : Scope :=
    if isDeclaration then s else { s with isAsync := isAsync, isGenerator := isGenerator }
  if isNamed || (← isVariable) then
    let _ ← within own (boundName false)
  let _ ← within (fun s => { s with hasSuper := false, inField := false })
    (inner (.functionRest form))
  return .leaf start .function

def readAsync (start : Place) (arrowFits : Bool) : Reading Tree := do
  let next ← following
  if next.isWord "function" && !next.afterBreak then
    advance
    readFunction inner true false false
  else
    advance
    if arrowFits && next.isPunct "(" && !next.afterBreak then
      readParentheses inner (some start) arrowFits
    else readAfterName inner (.name start "async".toList) true arrowFits

def readPrimaryWord (w : List Char) (start : Place) (arrowFits : Bool) : Reading Tree := do
  match String.ofList w with
  | "this" => advance; return .leaf start .other
  | "null" | "true" | "false" => advance; return .leaf start .literal
  | "function" => readFunction inner false false false
  | "class" =>
    advance
    let _ ← inner (.classRest false)
    return .leaf start .classValue
  | "async" => readAsync inner start arrowFits
  | "let" => readAfterName inner (← identifier) false arrowFits
  | _ =>
    if reservedWords.contains w then failExpression .expected
    if (← scope).inField && w = "arguments".toList then keep (.function .argumentsInField start)
    advance
    readAfterName inner (.name start w) false arrowFits

def readPrimary : Reading Tree := do
  let start ← place
  let arrowFits := (← get).arrowFits
  refuseFault
  match ← token with
  | .punct ['('] => readParentheses inner none arrowFits
  | .punct ['['] => advance; inner (.elements start [] none)
  | .punct ['\x7b'] => advance; inner (.fields start [] none)
  | .punct ['/'] | .punct ['/', '='] => readRegex
  | .punct ['#'] =>
    advance
    let _ ← anyName
    return .leaf start .other
  | .template _ =>
    let _ ← inner (.template false)
    return .leaf start .template
  | .number | .wholeNumber | .string _ => advance; return .leaf start .literal
  | .word w => readPrimaryWord inner w start arrowFits
  | _ => failExpression .expected

end Florin.Script
