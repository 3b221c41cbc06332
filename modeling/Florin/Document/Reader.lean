import Florin.Decimal.Shortest
import Florin.Document.Fault
import Florin.Text.Bytes
import Florin.Text.Identifier

/-! # Reading a document

A document is read from left to right by readers that know what they expect, and the first fault
met decides. What is not asked for is skipped, but it has to be well formed.
-/
namespace Florin.Document
open Text

structure Cursor where
  rest : List Char
  position : Position
  deriving DecidableEq, Repr

/-- A reader takes a value from the head of a text and leaves the rest. -/
abbrev Reader := StateT Cursor (Except Fault)

def isGap (c : Char) : Bool := c = ' ' || c = '\n' || c = '\t' || c = '\r'

def isDigit (c : Char) : Bool := Identifier.isAsciiDigit c

def digitValue (c : Char) : Nat := c.toNat - '0'.toNat

def hexValue? (c : Char) : Option Nat :=
  if isDigit c then some (digitValue c)
  else if 'a' ≤ c && c ≤ 'f' then some (c.toNat - 'a'.toNat + 10)
  else if 'A' ≤ c && c ≤ 'F' then some (c.toNat - 'A'.toNat + 10)
  else none

def fail (cause : Cause) : Reader α := do throw ⟨cause, (← get).position⟩

def failAfter (n : Nat) (cause : Cause) : Reader α := do
  let c ← get
  throw ⟨cause, c.position.afterBytes n c.rest⟩

/-- Fails because of the next character, of which the first byte is taken to be read. -/
def refuse (m : Malformation) : Reader α := failAfter 1 (.malformed m)

def peek? : Reader (Option Char) := do return (← get).rest.head?

def skip : Reader Unit := modify fun c =>
  match c.rest with
  | [] => c
  | d :: rest => ⟨rest, c.position.after d⟩

def takeWhile (p : Char → Bool) : Reader (List Char) := do
  let c ← get
  let taken := c.rest.takeWhile p
  set (Cursor.mk (c.rest.dropWhile p) (taken.foldl Position.after c.position))
  return taken

def skipGap : Reader Unit := do let _ ← takeWhile isGap

/-- The next character after a gap, which stays where it is; the text may not end here, inside the
given part. -/
def peekToken (p : Part) : Reader Char := do
  skipGap
  match ← peek? with
  | some c => return c
  | none => fail (.truncated p)

def colon : Reader Unit := do
  if (← peekToken .object) = ':' then skip else refuse .colon

def wordRest : List Char → Reader Unit
  | [] => return
  | c :: cs => do
    match ← peek? with
    | none => fail (.truncated .value)
    | some d => if d = c then do skip; wordRest cs else refuse .word

def digits : Reader (List Char) := takeWhile isDigit

/-- The greatest whole number that a number keeps exactly. -/
def exactLimit : Nat := 0xFFFFFFFFFFFFFFFF

/-- Appends digits to a number as long as it stays exact; gives back the digits that do not fit. -/
def appendDigits (n : Nat) : List Char → Nat × List Char
  | [] => (n, [])
  | d :: ds =>
    if n * 10 + digitValue d > exactLimit then (n, d :: ds)
    else appendDigits (n * 10 + digitValue d) ds

def power (n : Nat) : Float := Float.ofScientific 1 false n

def scale? (n : Nat) (exponent : Int) : Option Float :=
  let x := Float.ofNat n
  if exponent > 308 then (if n = 0 then some 0 else none)
  else if exponent ≥ 0 then
    let y := x * power exponent.toNat
    if y.isInf then none else some y
  else if exponent ≥ -308 then some (x / power (-exponent).toNat)
  else if exponent ≥ -616 then some (x / power 308 / power (-exponent - 308).toNat)
  else some 0

def decimal (positive : Bool) (n : Nat) (exponent : Int) : Reader Shape :=
  match scale? n exponent with
  | none => fail (.malformed .range)
  | some x => return .decimal (Decimal.text (if positive then x else -x))

/-- The greatest exponent that is kept. -/
def exponentLimit : Nat := 0x7FFFFFFF

/-- How many digits of an exponent are read when it becomes too great, if it does. -/
def digitsToLimit? (e : Nat) : List Char → Option Nat
  | [] => none
  | d :: ds =>
    if e * 10 + digitValue d > exponentLimit then some 1
    else (digitsToLimit? (e * 10 + digitValue d) ds).map (· + 1)

def exponentPart (positive : Bool) (n : Nat) (start : Int) : Reader Shape := do
  skip
  let sign ← peek?
  if sign = some '+' || sign = some '-' then skip
  match ← peek? with
  | none => fail (.truncated .value)
  | some c =>
    if !isDigit c then refuse .number
    let ds := (← get).rest.takeWhile isDigit
    -- An exponent that is too great matters only where it makes a number great.
    match digitsToLimit? 0 ds with
    | some k => if n ≠ 0 && sign ≠ some '-' then failAfter k (.malformed .range)
    | none => pure ()
    let e := Int.ofNat ((← digits).foldl (fun (a : Nat) d => a * 10 + digitValue d) 0)
    decimal positive n (if sign = some '-' then start - e else start + e)

def afterFraction (positive : Bool) (n : Nat) (exponent : Int) : Reader Shape := do
  let c ← peek?
  if c = some 'e' || c = some 'E' then exponentPart positive n exponent
  else decimal positive n exponent

/-- The part of a number after its whole digits, of which some may not have been kept. -/
def afterWhole (positive : Bool) (n : Nat) (lost : Nat) : Reader Shape := do
  let c ← peek?
  if c = some '.' then
    skip
    let ds ← digits
    if ds.isEmpty then
      if (← peek?).isNone then fail (.truncated .value) else refuse .number
    let (m, rest) := appendDigits n ds
    afterFraction positive m (Int.ofNat lost - Int.ofNat (ds.length - rest.length))
  else if c = some 'e' || c = some 'E' || lost > 0 then afterFraction positive n lost
  else if positive then return .integer n
  -- A zero below zero and what no signed number of 64 bits holds are decimals.
  else if n = 0 || n > 0x8000000000000000 then decimal positive n 0
  else return .integer (-n)

def wholeDigits : Reader (List Char) := do
  match ← peek? with
  | none => return []
  | some c =>
    if c ≠ '0' then digits
    else
      skip
      if (← peek?).any isDigit then refuse .number
      return [c]

def number (positive : Bool) : Reader Shape := do
  match ← peek? with
  | none => fail (.truncated .value)
  | some c =>
    if !isDigit c then refuse .number
    let (n, lost) := appendDigits 0 (← wholeDigits)
    afterWhole positive n lost.length

/-- Takes four hexadecimal digits; four bytes have to be left. -/
def hexQuad : Reader Nat := do
  let cs := (← get).rest
  if byteLength cs < 4 then failAfter 4 (.truncated .string)
  match (cs.take 4).mapM hexValue? with
  | some [a, b, c, d] =>
    skip; skip; skip; skip
    return ((a * 16 + b) * 16 + c) * 16 + d
  | _ => failAfter 4 (.malformed .escape)

def escapePart (c : Char) : Reader Unit := do
  match ← peek? with
  | none => fail (.truncated .string)
  | some d => if d = c then skip else refuse .escapeEnd

/-- Takes what a numbered escape stands for: a character beyond U+FFFF is written as two escapes. -/
def numbered : Reader Char := do
  let high ← hexQuad
  if 0xDC00 ≤ high && high ≤ 0xDFFF then fail (.malformed .loneSurrogate)
  if high < 0xD800 || 0xDBFF < high then return Char.ofNat high
  escapePart '\\'
  escapePart 'u'
  let low ← hexQuad
  if low < 0xDC00 || 0xDFFF < low then fail (.malformed .loneSurrogate)
  return Char.ofNat (0x10000 + (high - 0xD800) * 0x400 + (low - 0xDC00))

def simpleEscape? (c : Char) : Option Char :=
  match c with
  | '"' => some '"'
  | '\\' => some '\\'
  | '/' => some '/'
  | 'b' => some '\x08'
  | 'f' => some '\x0c'
  | 'n' => some '\n'
  | 'r' => some '\r'
  | 't' => some '\t'
  | _ => none

def escaped (strict : Bool) : Reader Char := do
  match ← peek? with
  | none => fail (.truncated .string)
  | some 'u' =>
    skip
    if strict then numbered
    -- The digits have to be there, whatever they stand for.
    else
      let _ ← hexQuad
      return '\x00'
  | some c =>
    match simpleEscape? c with
    | some d => skip; return d
    | none => refuse .escape

/-- Reads a string up to its closing quote. The fuel bounds the number of characters. -/
def stringBody (strict : Bool) : Nat → Reader (List Char)
  | 0 => fail (.truncated .string)
  | fuel + 1 => do
    match ← peek? with
    | none => fail (.truncated .string)
    | some '"' => skip; return []
    | some '\\' =>
      skip
      let d ← escaped strict
      return d :: (← stringBody strict fuel)
    | some c =>
      if c.toNat < 0x20 then
        if strict then refuse .control else fail (.malformed .control)
      skip
      return c :: (← stringBody strict fuel)

/-- The rest of a string of which the opening quote is read. Where nobody asks for the string, an
escape need not stand for a character. -/
def stringRest (strict : Bool) : Reader (List Char) := do
  stringBody strict ((← get).rest.length + 1)

def mismatch (m : Mismatch) : Reader α := fail (.mismatch m)

def wrongShape (expected : String) : Reader α := do
  let found : Shape ← do
    match ← peekToken .value with
    | 'n' => skip; wordRest ['u', 'l', 'l']; pure .null
    | 't' => skip; wordRest ['r', 'u', 'e']; pure (.boolean true)
    | 'f' => skip; wordRest ['a', 'l', 's', 'e']; pure (.boolean false)
    | '-' => skip; number false
    | '"' => skip; pure (.string (← stringRest true))
    | '[' => pure .sequence
    | '{' => pure .map
    | c => if isDigit c then number true else refuse .value
  mismatch (.wrongShape found expected)

def string (expected : String) : Reader (List Char) := do
  if (← peekToken .value) = '"' then
    skip
    stringRest true
  else wrongShape expected

def boolean (expected : String) : Reader Bool := do
  match ← peekToken .value with
  | 't' => skip; wordRest ['r', 'u', 'e']; return true
  | 'f' => skip; wordRest ['a', 'l', 's', 'e']; return false
  | _ => wrongShape expected

def null (expected : String) : Reader Unit := do
  if (← peekToken .value) = 'n' then
    skip
    wordRest ['u', 'l', 'l']
  else wrongShape expected

/-- One word of a list, as a string or as the only key of an object with the value null. -/
def word (known : List String) : Reader (List Char) := do
  let check (cs : List Char) : Reader (List Char) :=
    if known.any fun k => k.toList = cs then return cs else mismatch (.unknownWord cs known)
  match ← peekToken .value with
  | '"' => skip; check (← stringRest true)
  | '{' =>
    skip
    if (← peekToken .object) ≠ '"' then refuse .key
    skip
    let cs ← check (← stringRest true)
    colon
    null "unit"
    if (← peekToken .object) ≠ '}' then fail (.malformed .value)
    skip
    return cs
  | _ => refuse .value

/-- A number that nobody asks for: any size will do. -/
def skipNumber : Reader Unit := do
  if (← wholeDigits).isEmpty then refuse .number
  if (← peek?) = some '.' then
    skip
    if (← digits).isEmpty then refuse .number
  let c ← peek?
  if c = some 'e' || c = some 'E' then
    skip
    let sign ← peek?
    if sign = some '+' || sign = some '-' then skip
    if (← digits).isEmpty then refuse .number

mutual

/-- Skips a value. The fuel bounds how many values and parts of values follow each other. -/
def skipValue : Nat → Reader Unit
  | 0 => fail (.truncated .value)
  | fuel + 1 => do
    match ← peekToken .value with
    | 'n' => skip; wordRest ['u', 'l', 'l']
    | 't' => skip; wordRest ['r', 'u', 'e']
    | 'f' => skip; wordRest ['a', 'l', 's', 'e']
    | '-' => skip; skipNumber
    | '"' => skip; let _ ← stringRest false
    | '[' => skip; if (← peekToken .list) = ']' then skip else skipItems fuel
    | '{' => skip; if (← peekToken .object) = '}' then skip else skipFields fuel
    | c => if isDigit c then skipNumber else refuse .value

def skipItems : Nat → Reader Unit
  | 0 => fail (.truncated .list)
  | fuel + 1 => do
    skipValue fuel
    match ← peekToken .list with
    | ']' => skip
    | ',' => skip; skipItems fuel
    | _ => refuse .listEnd

def skipFields : Nat → Reader Unit
  | 0 => fail (.truncated .object)
  | fuel + 1 => do
    if (← peekToken .object) ≠ '"' then refuse .key
    skip
    let _ ← stringRest false
    colon
    skipValue fuel
    match ← peekToken .object with
    | '}' => skip
    | ',' => skip; skipFields fuel
    | _ => refuse .objectEnd

end

structure RecordField (σ : Type) where
  name : String
  read : σ → Reader σ

def listEnd : Reader Unit := do
  match ← peekToken .list with
  | ']' => skip
  | ',' =>
    skip
    skipGap
    if (← peek?) = some ']' then refuse .trailingComma else refuse .trailing
  | _ => refuse .trailing

def listedFields (first : Bool) : List (RecordField σ) → σ → Reader σ
  | [], s => do
    listEnd
    return s
  | f :: fs, s => do
    match ← peekToken .list with
    | ']' => skip; return s
    | c =>
      if !first then
        if c ≠ ',' then refuse .listEnd
        skip
        if (← peekToken .value) = ']' then refuse .trailingComma
      listedFields false fs (← f.read s)

/-- A field is given a second time: what could close the record is taken before the reader fails. -/
def repeated (name : String) : Reader α := do
  skipGap
  if (← peek?) = some '}' then skip
  mismatch (.repeatedField name)

/-- Named fields in any order, each at most once, up to the closing brace. The fuel bounds their
number. -/
def namedFields (fields : List (RecordField σ)) (first : Bool) (seen : List String) :
    Nat → σ → Reader σ
  | 0, _ => fail (.truncated .object)
  | fuel + 1, s => do
    let c ← peekToken .object
    if c = '}' then
      skip
      return s
    if !first then
      if c ≠ ',' then refuse .objectEnd
      skip
      if (← peekToken .value) = '}' then refuse .trailingComma
    if (← peek?) ≠ some '"' then refuse .key
    skip
    let key ← stringRest true
    match fields.find? fun f => f.name.toList = key with
    | some f =>
      if seen.contains f.name then repeated f.name
      colon
      namedFields fields false (f.name :: seen) fuel (← f.read s)
    | none =>
      colon
      skipValue (2 * (← get).rest.length + 2)
      namedFields fields false seen fuel s

/-- A record, written with the names of its fields or as a list in their order; what is missing
keeps the value it has at the start. -/
def record (fields : List (RecordField σ)) (start : σ) (expected : String) : Reader σ := do
  match ← peekToken .value with
  | '[' => skip; listedFields true fields start
  | '{' => skip; namedFields fields true [] ((← get).rest.length + 1) start
  | _ => wrongShape expected

def document (reader : Reader α) (text : String) : Except Fault α :=
  let whole : Reader α := do
    let a ← reader
    skipGap
    if (← peek?).isSome then refuse .trailing
    return a
  whole.run' ⟨text.toList, .start⟩

end Florin.Document
