import Florin.Scan
import Florin.Site

/-! # Scans by index

The expansion once more, as loops that move an index over a slice of the text. Whatever may go wrong
in such a loop is a fault here: no step is taken on trust.
-/
namespace Florin.Cursor
open Text Lexical

/-- A character that is not in the slice, a slice that is not in its text, a round of a loop that does not
move on or moves past the end, a nested scan of a text that is no shorter, a count below zero, and an output
that is cut somewhere else than at a word `async`. -/
inductive Fault where
  | outside (i length : Nat)
  | slice (first last length : Nat)
  | stuck (i next length : Nat)
  | nested (inner outer : Nat)
  | belowZero (count less : Nat)
  | cut (offset : Nat)
  deriving DecidableEq, Repr

abbrev Checked := Except Fault

def charAt (cs : List Char) (i : Nat) : Checked Char :=
  match cs[i]? with
  | some c => return c
  | none => throw (.outside i cs.length)

def slice (cs : List Char) (first last : Nat) : Checked (List Char) :=
  if first ≤ last ∧ last ≤ cs.length then return (cs.take last).drop first
  else throw (.slice first last cs.length)

def subtract (count less : Nat) : Checked Nat :=
  if less ≤ count then return count - less else throw (.belowZero count less)

def moveOn (cs : List Char) (i next : Nat) : Checked {j // i < j ∧ j ≤ cs.length} :=
  if h : i < next ∧ next ≤ cs.length then return ⟨next, h⟩ else throw (.stuck i next cs.length)

def nested (inner outer : List Char) : Checked {cs : List Char // cs.length < outer.length} :=
  if h : inner.length < outer.length then return ⟨inner, h⟩ else throw (.nested inner.length outer.length)

/-- The output up to a word `async`, which starts at this offset in bytes. -/
def cutAt (output : List Char) (offset : Nat) : Checked (List Char) :=
  let kept := takeBytes offset output
  if offset ≤ byteLength output ∧ byteLength kept = offset ∧ asyncWord <+: output.drop kept.length then
    return kept
  else throw (.cut offset)

/-! ## Scanners -/

def skipWhile (p : Char → Bool) (cs : List Char) (i : Nat) : Checked Nat := do
  if i < cs.length then
    if p (← charAt cs i) then
      let ⟨j, _⟩ ← moveOn cs i (i + 1)
      skipWhile p cs j
    else return i
  else return i
termination_by cs.length - i

/-- The context behind the character at the index, and how many characters are read. -/
def advance (cs : List Char) (k : Context) (i : Nat) : Checked (Context × Nat) := do
  let c ← charAt cs i
  let left ← subtract cs.length i
  return ((k.step c cs[i + 1]?).1, min (if (k.step c cs[i + 1]?).2 then 2 else 1) left)

def depthBehind (b : Bracket) (k : Context) (c : Char) (depth : Nat) : Checked Nat :=
  if k.isCode && c = b.opener then return depth + 1
  else if k.isCode && c = b.closer then subtract depth 1
  else return depth

/-- The text that a bracket encloses whose opener is at `start`, and the index of its closer. -/
def enclosed? (b : Bracket) (cs : List Char) (start : Nat) (k : Context) (depth i : Nat) :
    Checked (Option (List Char × Nat)) := do
  if i < cs.length then
    let c ← charAt cs i
    let depth ← depthBehind b k c depth
    if k.isCode && c = b.closer && depth = 0 then return some (← slice cs (start + 1) i, i)
    else
      let (after, width) ← advance cs k i
      let ⟨j, _⟩ ← moveOn cs i (i + width)
      enclosed? b cs start after depth j
  else return none
termination_by cs.length - i

def nestingBehind? (k : Context) (c : Char) (n : Nesting) : Checked (Option Nesting) :=
  if k.isCode then
    match Bracket.ofOpener? c, Bracket.ofCloser? c with
    | some b, _ => return some (n.put b (n.count b + 1))
    | none, some b =>
      if n.count b = 0 then return none else return some (n.put b (← subtract (n.count b) 1))
    | none, none => return if (c = ',' || c = ';') && n = .zero then none else some n
  else return some n

/-- The end of an expression; `last` is its end as far as it is known. -/
def expressionEnd (cs : List Char) (k : Context) (n : Nesting) (last i : Nat) : Checked Nat := do
  if i < cs.length then
    let c ← charAt cs i
    match ← nestingBehind? k c n with
    | none => return last
    | some n =>
      let (after, width) ← advance cs k i
      let text ← slice cs i (i + width)
      let ⟨j, _⟩ ← moveOn cs i (i + width)
      expressionEnd cs after n (if Step.isSilent ⟨k, text, after⟩ then last else i + width) j
  else return last
termination_by cs.length - i

/-! ## Shorthands -/

/-- A shorthand by what is read of it, with the index behind it. Absent parameters are empty ones. -/
structure Form where
  generator : Bool
  name : Option (List Char)
  params : List Char
  body : Body
  stop : Nat
  deriving DecidableEq, Repr

def starAt (cs : List Char) (i : Nat) : Checked (Bool × Nat) := do
  let star ← skipWhile isBlank cs i
  if cs[star]? = some '*' then return (true, ← skipWhile isBlank cs (star + 1)) else return (false, star)

def nameAt (cs : List Char) (i : Nat) : Checked (Option (List Char) × Nat) := do
  if cs[i]?.any Identifier.isStart then
    let last ← skipWhile Identifier.isContinue cs (i + 1)
    return (some (← slice cs i last), ← skipWhile isBlank cs last)
  else return (none, i)

/-- The parameters at an index and the index behind them and their blanks; fails on open parentheses. -/
def paramsAt? (cs : List Char) (i : Nat) : Checked (Option (List Char × Nat)) := do
  if cs[i]? = some '(' then
    match ← enclosed? .paren cs i .start 0 i with
    | some (inner, last) => return some (inner, ← skipWhile isBlank cs (last + 1))
    | none => return none
  else return some ([], i)

def bodyAt? (generator : Bool) (cs : List Char) (i : Nat) : Checked (Option (Body × Nat)) := do
  if cs[i]? = some '{' then
    match ← enclosed? .curly cs i .start 0 i with
    | some (inner, last) => return some (.block inner, last + 1)
    | none => return none
  else if generator then return none
  else
    let last ← expressionEnd cs .start .zero i i
    let text ← slice cs i last
    return if text.isEmpty then none else some (.expression text, last)

def formAt? (cs : List Char) (i : Nat) : Checked (Option Form) := do
  let (generator, afterStar) ← starAt cs (i + 1)
  let (name, afterName) ← nameAt cs afterStar
  match ← paramsAt? cs afterName with
  | none => return none
  | some (params, afterParams) =>
    match ← bodyAt? generator cs afterParams with
    | none => return none
    | some (body, stop) => return some ⟨generator, name, params, body, stop⟩

/-! ## The scan -/

def joinedAt (cs : List Char) (i : Nat) : Checked Bool := do
  if 0 < i then return Identifier.isContinue (← charAt cs (← subtract i 1)) else return false

def wordEnd? (cs : List Char) (k : Context) (i : Nat) : Checked (Option Nat) := do
  if k.isCode then
    if ← joinedAt cs i then return none
    else if Identifier.isStart (← charAt cs i) then return some (← skipWhile Scan.isWordChar cs (i + 1))
    else return none
  else return none

/-- The output without the word `async` that is pending in it. -/
def takeBack (output : List Char) : Option Nat → Checked (List Char)
  | some offset => cutAt output offset
  | none => return output

def scan (w : Keyword) (cs : List Char) (k : Context) (pending : Option Nat) (output : List Char) (i : Nat) :
    Checked (List Char) := do
  if i < cs.length then
    let c ← charAt cs i
    if k.isCode && c = sigil then
      match ← formAt? cs i with
      | some f =>
        let kept ← takeBack output pending
        let ⟨params, _⟩ ← nested f.params cs
        let params ← scan w params .start none [] 0
        let ⟨body, _⟩ ← nested f.body.text cs
        let body ← scan w body .start none [] 0
        let ⟨j, _⟩ ← moveOn cs i f.stop
        scan w cs k none
          (kept ++ Shorthand.standard ⟨f.generator, f.name, [], [], [], f.body, []⟩ w pending.isSome params body) j
      | none =>
        let ⟨j, _⟩ ← moveOn cs i (i + 1)
        scan w cs k none (output ++ [sigil]) j
    else
      match ← wordEnd? cs k i with
      | some last =>
        let word ← slice cs i last
        let ⟨j, _⟩ ← moveOn cs i last
        scan w cs k (if word = asyncWord then some (byteLength output) else none) (output ++ word) j
      | none =>
        let (after, width) ← advance cs k i
        let text ← slice cs i (i + width)
        let ⟨j, _⟩ ← moveOn cs i (i + width)
        scan w cs after (if k.isCode && isBlank c then pending else none) (output ++ text) j
  else return output
termination_by (cs.length, cs.length - i)

def expand (w : Keyword) (cs : List Char) : Checked (List Char) :=
  if sigil ∈ cs then scan w cs .start none [] 0 else return cs

/-! ## Sites -/

structure Line where
  number : Nat
  start : Nat
  deriving DecidableEq, Repr

def Line.behind (l : Line) (i : Nat) : List Char → Line
  | [] => l
  | c :: cs => if c = '\n' then behind ⟨l.number + 1, i + 1⟩ (i + 1) cs else behind l (i + 1) cs

/-- The site of the character at an index on this line, if it is a sigil in code. -/
def sitesAt (cs : List Char) (k : Context) (l : Line) (i : Nat) : Checked (List Site) := do
  if k.isCode && (← charAt cs i) = sigil then
    return [⟨byteLength (← slice cs 0 i), l.number, (← subtract i l.start) + 1⟩]
  else return []

/-- The sites of the sigils in code from an index on, behind those that are found so far. -/
def sitesFrom (cs : List Char) (k : Context) (l : Line) (found : List Site) (i : Nat) :
    Checked (List Site) := do
  if i < cs.length then
    let here ← sitesAt cs k l i
    let (after, width) ← advance cs k i
    let text ← slice cs i (i + width)
    let ⟨j, _⟩ ← moveOn cs i (i + width)
    sitesFrom cs after (l.behind i text) (found ++ here) j
  else return found
termination_by cs.length - i

def leftoverSites (cs : List Char) : Checked (List Site) := sitesFrom cs .start ⟨1, 0⟩ [] 0

end Florin.Cursor
