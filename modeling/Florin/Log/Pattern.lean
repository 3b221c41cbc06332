import Florin.Text.AlphanumericRanges
import Florin.Text.Blank
import Florin.Text.Identifier

/-! # Patterns for the values of fields

A filter may ask for the value of a field by a number or by a regular expression. Whether the text
is one of them is all that matters here. It has no closing brace, so that nothing in it that needs
one comes to an end.
-/
namespace Florin.Log.Pattern
open Text

inductive Fault where
  | malformed
  | wordBoundary
  deriving DecidableEq, Repr

def Fault.message : Fault → String
  | .malformed => "error building NFA"
  | .wordBoundary => "unsupported regex feature for DFAs"

/-- How a pattern is read: blanks and comments in it mean nothing, and its characters are those of
Unicode rather than bytes. -/
structure Modes where
  isSpaced : Bool
  isUnicode : Bool
  deriving DecidableEq, Repr

/-- A part of a pattern that stands for one character, or for a place between two of them. -/
inductive Atom where
  | literal (c : Char)
  | group (isNegated : Bool)
  | anchor (isBoundary : Bool)
  deriving DecidableEq, Repr

/-- Without Unicode only ASCII characters stand for something. -/
def Atom.fits (m : Modes) : Atom → Bool
  | .literal c => m.isUnicode || Identifier.isAscii c
  | .group isNegated => m.isUnicode || !isNegated
  | .anchor _ => true

def spacedRest : Bool → List Char → List Char
  | _, [] => []
  | true, c :: cs => spacedRest (c ≠ '\n') cs
  | false, c :: cs =>
    if c = '#' then spacedRest true cs else if isBlank c then spacedRest false cs else c :: cs

def gapRest (m : Modes) (cs : List Char) : List Char :=
  if m.isSpaced then spacedRest false cs else cs

def hexValue? (c : Char) : Option Nat :=
  if Identifier.isAsciiDigit c then some (c.toNat - '0'.toNat)
  else if 'a' ≤ c && c ≤ 'f' then some (c.toNat - 'a'.toNat + 10)
  else if 'A' ≤ c && c ≤ 'F' then some (c.toNat - 'A'.toNat + 10)
  else none

def hexNumber? (m : Modes) : Nat → Nat → List Char → Option (Nat × List Char)
  | 0, n, cs => some (n, cs)
  | count + 1, n, cs =>
    match gapRest m cs with
    | [] => none
    | c :: rest => (hexValue? c).bind fun d => hexNumber? m count (16 * n + d) rest

def hexEscape? (m : Modes) (count : Nat) (cs : List Char) : Option (Atom × List Char) :=
  (hexNumber? m count 0 cs).bind fun (n, rest) =>
    if n.isValidChar then some (.literal (Char.ofNat n), rest) else none

def categories : List Char := "clmnpsz".toList

def categoryEscape? (m : Modes) (isNegated : Bool) (cs : List Char) : Option (Atom × List Char) :=
  match gapRest m cs with
  | [] => none
  | c :: rest =>
    if m.isUnicode && categories.contains c.toLower then some (.group isNegated, rest) else none

/-- An escape of which the backslash is read. Any mark of ASCII stands for itself but the angles. -/
def escape? (m : Modes) : List Char → Option (Atom × List Char)
  | [] => none
  | c :: rest =>
    match c with
    | 'x' => hexEscape? m 2 rest
    | 'u' => hexEscape? m 4 rest
    | 'U' => hexEscape? m 8 rest
    | 'p' => categoryEscape? m false rest
    | 'P' => categoryEscape? m true rest
    | 'd' | 's' | 'w' => some (.group false, rest)
    | 'D' | 'S' | 'W' => some (.group true, rest)
    | 'a' => some (.literal '\x07', rest)
    | 'f' => some (.literal '\x0c', rest)
    | 'n' => some (.literal '\n', rest)
    | 'r' => some (.literal '\r', rest)
    | 't' => some (.literal '\t', rest)
    | 'v' => some (.literal '\x0b', rest)
    | 'A' | 'z' => some (.anchor false, rest)
    | 'b' | 'B' | '<' | '>' => some (.anchor m.isUnicode, rest)
    | _ =>
      if !Identifier.isAscii c || Identifier.isAsciiLetter c || Identifier.isAsciiDigit c then none
      else some (.literal c, rest)

/-- One atom in brackets: there every character but the backslash stands for itself. -/
def member? (m : Modes) (cs : List Char) : Option (Atom × List Char) :=
  match cs with
  | [] => none
  | '\\' :: rest => (escape? m rest).filter fun (a, _) => a.fits m
  | c :: rest => if (Atom.literal c).fits m then some (.literal c, rest) else none

def namedGroups : List (List Char) :=
  ["alnum", "alpha", "ascii", "blank", "cntrl", "digit", "graph", "lower", "print", "punct",
    "space", "upper", "word", "xdigit"].map String.toList

def namedGroupRest? (cs : List Char) : Option (List Char) :=
  match cs with
  | ':' :: rest =>
    let body := if rest.head? = some '^' then rest.tail else rest
    let name := body.takeWhile (· ≠ ':')
    match body.dropWhile (· ≠ ':') with
    | ':' :: ']' :: rest => if namedGroups.contains name then some rest else none
    | _ => none
  | _ => none

def hyphensRest (m : Modes) : Nat → List Char → List Char
  | 0, cs => cs
  | fuel + 1, cs => if cs.head? = some '-' then hyphensRest m fuel (gapRest m cs.tail) else cs

/-- The text after an opening bracket and what has a meaning of its own behind it: a caret, hyphens,
and a closing bracket that is a member. -/
def openingRest (m : Modes) (cs : List Char) : Option (List Char) :=
  let cs := gapRest m cs
  let isNegated : Bool := cs.head? = some '^'
  let cs := if isNegated then gapRest m cs.tail else cs
  let rest := hyphensRest m cs.length cs
  if isNegated && !m.isUnicode then none
  else if rest.length = cs.length && rest.head? = some ']' then some rest.tail
  else some rest

def rangeRest? (m : Modes) (cs : List Char) : Option (List Char) := do
  let (first, rest) ← member? m cs
  match gapRest m rest with
  | '-' :: after =>
    let after := gapRest m after
    if after.head? = some ']' || after.head? = some '-' then
      match first with
      | .anchor _ => none
      | _ => return gapRest m rest
    else
      let (last, rest) ← member? m after
      match first, last with
      | .literal a, .literal b => if a ≤ b then return rest else none
      | _, _ => none
  | rest =>
    match first with
    | .anchor _ => none
    | _ => return rest

/-- The text after a bracketed group with so many open brackets. The fuel bounds the number of its
members. -/
def bracketRest? (m : Modes) : Nat → Nat → List Char → Option (List Char)
  | 0, _, _ => none
  | fuel + 1, depth, cs =>
    match gapRest m cs with
    | [] => none
    | ']' :: rest => if depth ≤ 1 then some rest else bracketRest? m fuel (depth - 1) rest
    | '[' :: rest =>
      match namedGroupRest? rest with
      | some rest => bracketRest? m fuel depth rest
      | none => (openingRest m rest).bind (bracketRest? m fuel (depth + 1))
    | '&' :: '&' :: rest | '-' :: '-' :: rest | '~' :: '~' :: rest => bracketRest? m fuel depth rest
    | cs => (rangeRest? m cs).bind (bracketRest? m fuel depth)

/-- A group in parentheses: a part of the pattern, or modes for what follows it. -/
inductive Opening where
  | part (name : Option (List Char)) (modes : Modes)
  | modes (modes : Modes)

def isNameStart (c : Char) : Bool :=
  c = '_' || Identifier.isAsciiLetter c || (!Identifier.isAscii c && inRanges alphanumericRanges c)

def isNamePart (c : Char) : Bool :=
  isNameStart c || Identifier.isAsciiDigit c || c = '.' || c = '[' || c = ']'

def namedOpening? (m : Modes) (cs : List Char) : Option (Opening × List Char) :=
  let name := cs.takeWhile (· ≠ '>')
  match cs.dropWhile (· ≠ '>') with
  | [] => none
  | _ :: rest =>
    if name.head?.any isNameStart && name.all isNamePart then some (.part (some name) m, rest)
    else none

def flags : List Char := "imsUuRx".toList

/-- The modes with some flags set, and those after a hyphen taken back. -/
def Modes.change (m : Modes) (fs : List Char) : Modes :=
  let off := fs.dropWhile (· ≠ '-')
  let isOn (old : Bool) (f : Char) : Bool := if off.contains f then false else old || fs.contains f
  ⟨isOn m.isSpaced 'x', isOn m.isUnicode 'u'⟩

def flaggedOpening? (m : Modes) (cs : List Char) : Option (Opening × List Char) :=
  let isFlag (c : Char) : Bool := c ≠ ':' && c ≠ ')'
  let fs := cs.takeWhile isFlag
  let fits := fs.all fun f => (f = '-' || flags.contains f) && fs.count f = 1
  if !fits || fs.getLast? = some '-' then none
  else
    match cs.dropWhile isFlag with
    | ':' :: rest => some (.part none (m.change fs), rest)
    | _ :: rest => if fs.isEmpty then none else some (.modes (m.change fs), rest)
    | [] => none

def opening? (m : Modes) (cs : List Char) : Option (Opening × List Char) :=
  match gapRest m cs with
  | '?' :: 'P' :: '<' :: rest | '?' :: '<' :: rest => namedOpening? m rest
  | '?' :: rest => flaggedOpening? m rest
  | rest => some (.part none m, rest)

/-- What is known of a pattern where it is read: the modes outside the open groups, the names of
groups, whether something stands here that can be repeated, and whether a boundary of words was
met. -/
structure State where
  outer : List Modes
  modes : Modes
  names : List (List Char)
  canRepeat : Bool
  hasBoundary : Bool

def State.start : State := ⟨[], ⟨false, true⟩, [], false, false⟩

def State.enter (s : State) : Opening → Option State
  | .modes m => some { s with modes := m, canRepeat := false }
  | .part name m =>
    if name.any s.names.contains then none
    else some { s with
      outer := s.modes :: s.outer
      modes := m
      names := name.toList ++ s.names
      canRepeat := false }

def State.leave (s : State) : Option State :=
  match s.outer with
  | [] => none
  | m :: outer => some { s with outer := outer, modes := m, canRepeat := true }

def step (s : State) (cs : List Char) : Option (State × List Char) :=
  match cs with
  | [] | '\x7b' :: _ => none
  | '(' :: rest => do
    let (o, rest) ← opening? s.modes rest
    return (← s.enter o, rest)
  | ')' :: rest => s.leave.map fun s => (s, rest)
  | '|' :: rest => some ({ s with canRepeat := false }, rest)
  | '[' :: rest => do
    let rest ← bracketRest? s.modes (rest.length + 1) 1 (← openingRest s.modes rest)
    return ({ s with canRepeat := true }, rest)
  | '\\' :: rest => do
    let (a, rest) ← escape? s.modes rest
    if !a.fits s.modes then none
    return ({ s with canRepeat := true, hasBoundary := s.hasBoundary || a = .anchor true }, rest)
  | c :: rest =>
    if c = '?' || c = '*' || c = '+' then
      if s.canRepeat then some (s, if rest.head? = some '?' then rest.tail else rest) else none
    else
      let a := if c = '.' then Atom.group true else .literal c
      if a.fits s.modes then some ({ s with canRepeat := true }, rest) else none

def readFrom : Nat → State → List Char → Except Fault Unit
  | 0, _, _ => .error .malformed
  | fuel + 1, s, cs =>
    match gapRest s.modes cs with
    | [] =>
      if !s.outer.isEmpty then .error .malformed
      else if s.hasBoundary then .error .wordBoundary
      else .ok ()
    | cs =>
      match step s cs with
      | none => .error .malformed
      | some (s, rest) => readFrom fuel s rest

def isDecimal (cs : List Char) : Bool :=
  let isDigit := Identifier.isAsciiDigit
  let whole := cs.takeWhile isDigit
  let rest := cs.dropWhile isDigit
  let fraction := if rest.head? = some '.' then rest.tail.takeWhile isDigit else []
  let rest := if rest.head? = some '.' then rest.tail.dropWhile isDigit else rest
  let isExponent := match rest with
    | [] => true
    | e :: '+' :: ds | e :: '-' :: ds => e.toLower = 'e' && !ds.isEmpty && ds.all isDigit
    | e :: ds => e.toLower = 'e' && !ds.isEmpty && ds.all isDigit
  !(whole ++ fraction).isEmpty && isExponent

/-- A number may have a plus sign before it, which no pattern starts with. -/
def isSignedNumber (cs : List Char) : Bool :=
  match cs with
  | '+' :: rest =>
    isDecimal rest || ["inf", "infinity", "nan"].any (·.toList = rest.map Char.toLower)
  | _ => false

def check (cs : List Char) : Except Fault Unit :=
  if isSignedNumber cs then .ok () else readFrom (cs.length + 1) .start cs

end Florin.Log.Pattern
