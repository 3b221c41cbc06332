import Florin.Text.Blank
import Florin.Text.WidthRanges

/-! # Display columns

How many columns a character takes on a display, and the line and column of a place in a text that
is counted that way.
-/
namespace Florin.Text

/-- A tab counts as four columns and any other control as none. The Khmer sign beyyal is the one
character with three. -/
def displayWidth (c : Char) : Nat :=
  if c = '\t' then 4
  else if c.toNat < 0x20 || (0x7F ≤ c.toNat && c.toNat < 0xA0) then 0
  else if c.toNat < 0x7F then 1
  else if c = '\u17D8' then 3
  else if inRanges zeroWidthRanges c then 0
  else if inRanges wideRanges c then 2
  else 1

/-- How many columns a character advances a place by. A character outside the basic plane counts
for one more than it takes, as it is written with two units. -/
def columnStep (c : Char) : Nat :=
  if c.toNat < 0x10000 then displayWidth c else displayWidth c + 1

/-- A line and a display column, both from one. -/
structure DisplayPlace where
  line : Nat
  column : Nat
  deriving DecidableEq, Repr

/-- The place after a text that starts at the given place. A line feed, a carriage return and the
two of them in this order each end one line. -/
def DisplayPlace.after (p : DisplayPlace) : List Char → DisplayPlace
  | [] => p
  | ['\r'] => ⟨p.line + 1, 1⟩
  | '\r' :: '\n' :: cs => DisplayPlace.after ⟨p.line + 1, 1⟩ cs
  | c :: cs =>
    if c = '\n' || c = '\r' then DisplayPlace.after ⟨p.line + 1, 1⟩ cs
    else DisplayPlace.after ⟨p.line, p.column + columnStep c⟩ cs

def finalBreak (cs : List Char) : Nat :=
  match cs.reverse with
  | '\n' :: '\r' :: _ => 2
  | c :: _ => if c = '\n' || c = '\r' then 1 else 0
  | [] => 0

/-- The place after the first characters of a text. No line starts at the end of the text: a line
break there takes a column for each of its characters. -/
def displayPlace (cs : List Char) (n : Nat) : DisplayPlace :=
  let columns := if n < cs.length then 0 else finalBreak cs
  let p := DisplayPlace.after ⟨1, 1⟩ (cs.take (min n cs.length - columns))
  ⟨p.line, p.column + columns⟩

end Florin.Text
