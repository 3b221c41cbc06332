import Florin.Text.Blank

/-! # Writing a document

Values as documents show them: on one line, or with one item on a line and two blanks for each
level.
-/
namespace Florin.Document

inductive Value where
  | text (cs : List Char)
  | number (n : Nat)
  | list (items : List Value)
  | object (fields : List (String × Value))

def hexDigit (n : Nat) : Char := Nat.digitChar n

/-- Only quotes, backslashes and controls are escaped. -/
def escape (c : Char) : List Char :=
  if c = '"' then ['\\', '"']
  else if c = '\\' then ['\\', '\\']
  else if c = '\n' then ['\\', 'n']
  else if c = '\r' then ['\\', 'r']
  else if c = '\t' then ['\\', 't']
  else if c = '\x08' then ['\\', 'b']
  else if c = '\x0c' then ['\\', 'f']
  else if c.toNat < 0x20 then
    ['\\', 'u', '0', '0', hexDigit (c.toNat / 16), hexDigit (c.toNat % 16)]
  else [c]

def quote (cs : List Char) : List Char := '"' :: cs.flatMap escape ++ ['"']

/-- How the parts of a value are set apart: the text before each item on a level, the text before
the end of that level, and the text after a name. -/
structure Layout where
  before : Nat → List Char
  colon : List Char

def Layout.compact : Layout := ⟨fun _ => [], [':']⟩

def Layout.indented : Layout := ⟨fun level => '\n' :: List.replicate (2 * level) ' ', [':', ' ']⟩

mutual

def Value.print (l : Layout) (level : Nat) : Value → List Char
  | .text cs => quote cs
  | .number n => Nat.toDigits 10 n
  | .list [] => ['[', ']']
  | .list items => '[' :: printItems l (level + 1) items ++ l.before level ++ [']']
  | .object [] => ['\x7b', '\x7d']
  | .object fields => '\x7b' :: printFields l (level + 1) fields ++ l.before level ++ ['\x7d']

def printItems (l : Layout) (level : Nat) : List Value → List Char
  | [] => []
  | [v] => l.before level ++ v.print l level
  | v :: vs => l.before level ++ v.print l level ++ ',' :: printItems l level vs

def printFields (l : Layout) (level : Nat) : List (String × Value) → List Char
  | [] => []
  | [(name, v)] => l.before level ++ quote name.toList ++ l.colon ++ v.print l level
  | (name, v) :: fields =>
    l.before level ++ quote name.toList ++ l.colon ++ v.print l level ++
      ',' :: printFields l level fields

end

def Value.pretty (v : Value) : String := String.ofList (v.print .indented 0)

def Value.line (v : Value) : String := String.ofList (v.print .compact 0)

end Florin.Document
