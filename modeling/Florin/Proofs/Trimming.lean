import Florin.Expansion
import Florin.Proofs.Lexical.Balance

/-! # Trimmed texts

The clean-up of an expanded expression takes blanks and semicolons away at its end. Of a text that ends
in any other character it takes nothing away, and of such a text with one semicolon behind it just that.
-/
namespace Florin
open Text Lexical

/-- The text ends in a character that the clean-up of an expression keeps. -/
def Solid (cs : List Char) : Prop := ∃ front c, cs = front ++ [c] ∧ isBlank c = false ∧ c ≠ ';'

theorem Solid.append {ys : List Char} (h : Solid ys) (xs : List Char) : Solid (xs ++ ys) := by
  obtain ⟨front, c, rfl, hc⟩ := h
  exact ⟨xs ++ front, c, (List.append_assoc _ _ _).symm, hc⟩

theorem solid_around (b : Bracket) (cs : List Char) : Solid (b.around cs) :=
  ⟨b.opener :: cs, b.closer, rfl, by cases b <;> decide⟩

/-- What is written as a body is what is written elsewhere but for one semicolon at its end. -/
structure Trims (whole trimmed : List Char) : Prop where
  solid : Solid trimmed
  whole : whole = trimmed ∨ whole = trimmed ++ [';']

namespace Trims

theorem refl {cs : List Char} (h : Solid cs) : Trims cs cs := ⟨h, Or.inl rfl⟩

theorem append {xs ys : List Char} (h : Trims xs ys) (front : List Char) :
    Trims (front ++ xs) (front ++ ys) := by
  refine ⟨h.solid.append front, ?_⟩
  rcases h.whole with rfl | rfl
  · exact Or.inl rfl
  · exact Or.inr (List.append_assoc _ _ _).symm

theorem clean {xs ys : List Char} (h : Trims xs ys) : Shorthand.cleanExpression xs = ys := by
  obtain ⟨⟨front, c, rfl, hblank, hsemi⟩, hwhole⟩ := h
  have hkeep {p : Char → Bool} {d : Char} (hd : p d = false) (back : List Char) :
      dropWhileEnd p (back ++ [d]) = back ++ [d] := by
    have hback : dropWhileEnd p (back ++ [d] ++ []) = back ++ [d] :=
      dropWhileEnd_append (by simp) (by simp [hd])
    rwa [List.append_nil] at hback
  have hdrop : dropWhileEnd (· = ';') (front ++ [c]) = front ++ [c] := hkeep (by simpa using hsemi) front
  have htrim : trimEnd (front ++ [c]) = front ++ [c] := hkeep hblank front
  rcases hwhole with rfl | rfl
  · rw [Shorthand.cleanExpression, htrim, hdrop, htrim]
  · have htrim' : trimEnd (front ++ [c] ++ [';']) = front ++ [c] ++ [';'] := hkeep (by decide) _
    have hdrop' : dropWhileEnd (· = ';') (front ++ [c] ++ [';']) = front ++ [c] :=
      dropWhileEnd_append (by simp) (by simp [hsemi])
    rw [Shorthand.cleanExpression, htrim', hdrop', htrim]

end Trims

end Florin
