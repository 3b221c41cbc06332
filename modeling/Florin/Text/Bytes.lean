/-! # Byte lengths

How many bytes a text takes in UTF-8.
-/
namespace Florin.Text

def byteLength : List Char → Nat
  | [] => 0
  | c :: cs => c.utf8Size + byteLength cs

theorem byteLength_append (xs ys : List Char) :
    byteLength (xs ++ ys) = byteLength xs + byteLength ys := by
  induction xs with
  | nil => simp [byteLength]
  | cons c xs ih =>
    rw [List.cons_append, byteLength, byteLength, ih]
    omega

/-- The longest text at the front that takes at most so many bytes. -/
def takeBytes (n : Nat) : List Char → List Char
  | [] => []
  | c :: cs => if c.utf8Size ≤ n then c :: takeBytes (n - c.utf8Size) cs else []

theorem takeBytes_append (xs ys : List Char) : takeBytes (byteLength xs) (xs ++ ys) = xs := by
  induction xs with
  | nil =>
    cases ys with
    | nil => rfl
    | cons c ys => simp [byteLength, takeBytes, Nat.ne_of_gt c.utf8Size_pos]
  | cons c xs ih => simp [byteLength, takeBytes, ih]

end Florin.Text
