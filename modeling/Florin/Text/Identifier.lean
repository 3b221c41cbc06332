import Florin.Text.Blank
import Florin.Text.IdentifierRanges

/-! # Identifiers

Which characters start an identifier and which ones continue it. Every character that starts
one also continues one, and no blank does either.
-/
namespace Florin.Text.Identifier

def isAsciiLetter (c : Char) : Bool := ('a' ≤ c && c ≤ 'z') || ('A' ≤ c && c ≤ 'Z')

def isAsciiDigit (c : Char) : Bool := '0' ≤ c && c ≤ '9'

def isAscii (c : Char) : Bool := c.toNat < 0x80

def isStart (c : Char) : Bool :=
  c = '$' || c = '_' || isAsciiLetter c || (!isAscii c && inRanges startRanges c)

/-- Digits, the two joiners of zero width and the continuing marks go on with an identifier. -/
def isContinue (c : Char) : Bool :=
  isStart c || isAsciiDigit c || c = '\u200C' || c = '\u200D' ||
    (!isAscii c && inRanges continueOnlyRanges c)

theorem isContinue_of_isStart {c : Char} (h : isStart c = true) : isContinue c = true := by
  simp [isContinue, h]

/-- The longest identifier at the head of the text, and what follows it. -/
def read? : List Char → Option (List Char × List Char)
  | [] => none
  | c :: rest =>
    if isStart c then some (c :: rest.takeWhile isContinue, rest.dropWhile isContinue) else none

theorem append_of_read? {cs name rest : List Char} (h : read? cs = some (name, rest)) :
    name ++ rest = cs := by
  cases cs with
  | nil => simp [read?] at h
  | cons c cs =>
    simp only [read?, Option.ite_none_right_eq_some, Option.some.injEq, Prod.mk.injEq] at h
    obtain ⟨-, rfl, rfl⟩ := h
    simp [List.takeWhile_append_dropWhile]

end Florin.Text.Identifier
