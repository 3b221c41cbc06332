/-! # Blanks

A blank is a character with the Unicode property White_Space, in any part of a source text.
-/
namespace Florin.Text

/-- The code points of the property White_Space, as closed ranges. -/
def blankRanges : List (Nat × Nat) := [
  (0x9, 0xD), (0x20, 0x20), (0x85, 0x85), (0xA0, 0xA0), (0x1680, 0x1680), (0x2000, 0x200A),
  (0x2028, 0x2029), (0x202F, 0x202F), (0x205F, 0x205F), (0x3000, 0x3000)]

def inRanges (ranges : List (Nat × Nat)) (c : Char) : Bool :=
  ranges.any fun r => r.1 ≤ c.toNat && c.toNat ≤ r.2

def isBlank (c : Char) : Bool := inRanges blankRanges c

def skipBlanks (cs : List Char) : List Char := cs.dropWhile isBlank

/-- Removes the longest run at the end whose members all satisfy the test. -/
def dropWhileEnd (p : α → Bool) (xs : List α) : List α := (xs.reverse.dropWhile p).reverse

theorem dropWhileEnd_length_le (p : α → Bool) (xs : List α) :
    (dropWhileEnd p xs).length ≤ xs.length := by
  simpa [dropWhileEnd] using (List.dropWhile_sublist p (l := xs.reverse)).length_le

theorem dropWhileEnd_append_takeWhile (p : α → Bool) (xs : List α) :
    dropWhileEnd p xs ++ (xs.reverse.takeWhile p).reverse = xs := by
  rw [dropWhileEnd, ← List.reverse_append, List.takeWhile_append_dropWhile, List.reverse_reverse]

def trimEnd (cs : List Char) : List Char := dropWhileEnd isBlank cs

end Florin.Text
