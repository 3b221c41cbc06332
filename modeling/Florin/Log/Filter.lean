import Florin.Log
import Florin.Log.Pattern
import Florin.Path

/-! # Log filters

A filter is a text of directives between commas, and each of them names the events that it speaks
of and the least level that they need. The most specific directive on an event decides.
-/
namespace Florin.Log
open Text

/-- The least level that is let through; nothing at all passes `off`. -/
inductive Threshold where
  | off
  | from (l : Level)
  deriving DecidableEq, Repr

namespace Threshold

def admits : Threshold → Level → Bool
  | .off, _ => false
  | .from least, l => least.rank ≤ l.rank

def all : List Threshold :=
  [.off, .from .error, .from .warn, .from .info, .from .debug, .from .trace]

def name : Threshold → String
  | .off => "OFF"
  | .from l => l.name

def number? (cs : List Char) : Option Nat :=
  let digits := if cs.head? = some '+' then cs.tail else cs
  if digits.isEmpty || !digits.all Identifier.isAsciiDigit then none
  else some (digits.foldl (fun n d => 10 * n + (d.toNat - '0'.toNat)) 0)

/-- A threshold is written as its number or its name, in any case of its letters. -/
def ofText? (cs : List Char) : Option Threshold :=
  match number? cs with
  | some n => all[n]?
  | none => all.find? fun t => t.name.toList = cs.map Char.toUpper

end Threshold

/-- The events that a directive speaks of: those whose target starts with a text, inside a span of a
name, and with fields. A field may have a value after an equals sign. -/
structure Directive where
  target : Option (List Char)
  span : Option (List Char)
  fields : List (List Char)
  threshold : Threshold
  deriving DecidableEq, Repr

namespace Directive

inductive Fault where
  | form
  | level
  | field (f : Pattern.Fault)
  deriving DecidableEq, Repr

def Fault.message : Fault → String
  | .form => "invalid filter directive"
  | .level =>
    "error parsing level filter: expected one of \"off\", \"error\", \"warn\", \"info\", " ++
    "\"debug\", \"trace\", or a number 0-5"
  | .field f => "invalid field filter: " ++ f.message

inductive Stage where
  | start
  | word (since : Nat)
  | span (since : Nat)
  | field (since : Nat)
  | fields
  | closed
  | level (since : Nat)
  deriving DecidableEq, Repr

/-- The characters of a text between two byte offsets; `at_` is the offset of the first one. -/
def between (start stop : Nat) (at_ : Nat) : List Char → List Char
  | [] => []
  | c :: cs =>
    let rest := between start stop (at_ + c.utf8Size) cs
    if start ≤ at_ && at_ < stop then c :: rest else rest

def slice (whole : List Char) (start stop : Nat) : List Char := between start stop 0 whole

def isOpening (c : Char) : Bool :=
  c = '-' || c = ':' || c = '_' || Identifier.isAsciiLetter c || Identifier.isAsciiDigit c ||
    (!Identifier.isAscii c && inRanges alphanumericRanges c)

/-- Without a text every level passes. -/
def thresholdOf (cs : List Char) : Except Fault Threshold :=
  if cs.isEmpty then .ok (.from .trace)
  else
    match Threshold.ofText? cs with
    | some t => .ok t
    | none => .error .level

/-- The value that a field has after its equals sign; a second one ends it. -/
def fieldValue? (field : List Char) : Option (List Char) :=
  match field.dropWhile (· ≠ '=') with
  | [] => none
  | _ :: rest => some (rest.takeWhile (· ≠ '='))

/-- A field with a value has a number or a pattern for it. -/
def checkField (field : List Char) : Except Fault Unit :=
  match fieldValue? field with
  | none => .ok ()
  | some value => (Pattern.check value).mapError .field

def step (whole : List Char) (d : Directive) (stage : Stage) (offset : Nat) (c : Char) :
    Except Fault (Directive × Stage) :=
  match stage with
  | .start =>
    if c = '[' then .ok (d, .span (offset + 1))
    else if isOpening c then .ok (d, .word offset)
    else .error .form
  | .word since =>
    let target := some (slice whole since offset)
    if c = '=' then .ok (⟨target, d.span, d.fields, d.threshold⟩, .level (offset + 1))
    else if c = '[' then .ok (⟨target, d.span, d.fields, d.threshold⟩, .span (offset + 1))
    else .ok (d, stage)
  | .span since =>
    let name := slice whole since offset
    if c = ']' then .ok (⟨d.target, some name, d.fields, d.threshold⟩, .closed)
    else if c = '\x7b' then
      .ok (⟨d.target, if name.isEmpty then none else some name, d.fields, d.threshold⟩,
        .field (offset + 1))
    else .ok (d, stage)
  | .field since =>
    let field := slice whole since offset
    if c ≠ '\x7d' then .ok (d, stage)
    else if field.isEmpty then .error .form
    else
      (checkField field).map fun _ =>
        (⟨d.target, d.span, d.fields ++ [field], d.threshold⟩, .fields)
  | .fields => if c = ']' then .ok (d, .closed) else .error .form
  | .closed => if c = '=' then .ok (d, .level (offset + 1)) else .error .form
  | .level _ => .ok (d, stage)

/-- What a directive is when its text ends. A word alone is a level, or else a target. -/
def finish (whole : List Char) (d : Directive) : Stage → Except Fault Directive
  | .word since =>
    let word := slice whole since (byteLength whole)
    match Threshold.ofText? word with
    | some t => .ok ⟨none, d.span, d.fields, t⟩
    | none => .ok ⟨some word, d.span, d.fields, .from .trace⟩
  | .level since =>
    (thresholdOf (slice whole since (byteLength whole))).map fun t =>
      ⟨d.target, d.span, d.fields, t⟩
  | .closed => .ok d
  | _ => .error .form

def readFrom (whole : List Char) (d : Directive) (stage : Stage) (offset : Nat) :
    List Char → Except Fault Directive
  | [] => finish whole d stage
  | c :: cs =>
    match step whole d stage offset c with
    | .ok (d, stage) => readFrom whole d stage (offset + c.utf8Size) cs
    | .error e => .error e

/-- Reads a directive. The blanks around it are passed over, but offsets that are counted without
them cut the text that has them. -/
def read (part : List Char) : Except Fault Directive :=
  readFrom part ⟨none, none, [], .from .trace⟩ .start 0 (trimEnd (skipBlanks part))

def fieldName (field : List Char) : List Char := field.takeWhile (· ≠ '=')

def hasValue (field : List Char) : Bool := (fieldValue? field).isSome

/-- A directive that names a span or the value of a field speaks of what happens in spans alone, and
no event happens in one. -/
def isOnEvents (d : Directive) : Bool := d.span.isNone && !d.fields.any hasValue

def speaksOf (d : Directive) (e : Event) : Bool :=
  d.isOnEvents &&
  d.target.all (fun target => target.isPrefixOf e.target.toList) &&
  d.fields.all fun field => e.fieldNames.contains (String.ofList (fieldName field))

def namesInOrder : List (List Char) → List (List Char) → Bool
  | [], _ => true
  | _ :: _, [] => false
  | a :: as, b :: bs => if a = b then namesInOrder as bs else Path.inOrder a b

/-- One directive on an event is at least as specific as another one on it: it has a longer target,
or of equal ones more fields, or of as many the later names. -/
def outranks (a b : Directive) : Bool :=
  -- A target that is empty counts for more than none.
  let size (d : Directive) := (d.target.map fun target => byteLength target + 1).getD 0
  if size a ≠ size b then size b < size a
  else if a.fields.length ≠ b.fields.length then b.fields.length < a.fields.length
  else namesInOrder (b.fields.map fieldName) (a.fields.map fieldName)

end Directive

def readParts (text : String) : List (List Char × Except Directive.Fault Directive) :=
  ((splitOn ',' text.toList).filter fun part => !part.isEmpty).map fun part =>
    (part, Directive.read part)

def directives (text : String) : List Directive :=
  (readParts text).filterMap fun x => x.2.toOption

def complaint (part : List Char) (e : Directive.Fault) : String :=
  "ignoring \x60" ++ String.ofList part ++ "\x60: " ++ e.message

def complaints (text : String) : List String :=
  (readParts text).filterMap fun x =>
    match x.2 with
    | .ok _ => none
    | .error e => some (complaint x.1 e)

/-- The most specific directive that speaks of an event decides, of two equal ones the later. What
none speaks of does not pass; without any directive errors pass. -/
def admits (ds : List Directive) (e : Event) : Bool :=
  let best := (ds.filter (Directive.speaksOf · e)).foldl
    (fun (best : Option Directive) d =>
      match best with
      | none => some d
      | some b => if d.outranks b then some d else some b)
    none
  if ds.isEmpty then e.level = .error else best.any fun d => d.threshold.admits e.level

end Florin.Log
