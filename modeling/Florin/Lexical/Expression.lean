import Florin.Lexical.Bracket
import Florin.Text.Blank

/-! # The extent of a bare expression

An expression without brackets around it reaches to a closing bracket that it did not open, to a
comma or a semicolon outside its own brackets, or to the end of the text. Blanks and line comments
at its end do not belong to it.
-/
namespace Florin.Lexical
open Text

/-- The nesting after a step, or nothing where the step ends the expression before it. -/
def Nesting.after? (n : Nesting) (s : Step) : Option Nesting :=
  if s.before.isCode then
    match s.text.head? with
    | none => some n
    | some c =>
      match Bracket.ofOpener? c, Bracket.ofCloser? c with
      | some b, _ => some (n.put b (n.count b + 1))
      | none, some b => if n.count b = 0 then none else some (n.put b (n.count b - 1))
      | none, none => if (c = ',' || c = ';') && n = .zero then none else some n
  else some n

def Step.isSilent (s : Step) : Bool :=
  s.before.region = .lineComment || s.after.region = .lineComment || s.text.all isBlank

def expressionSteps (cs : List Char) : List Step :=
  dropWhileEnd Step.isSilent (stepsWhile Nesting.after? .zero .start cs).1

theorem expressionSteps_initial (cs : List Char) : expressionSteps cs <+: trace .start cs :=
  List.IsPrefix.trans ⟨_, dropWhileEnd_append_takeWhile Step.isSilent _⟩
    (stepsWhile_initial Nesting.after? .zero .start cs)

/-- The expression at the head of the text, and the text after it. -/
def expression (cs : List Char) : List Char × List Char :=
  let text := spell (expressionSteps cs)
  (text, cs.drop text.length)

theorem expression_append (cs : List Char) : (expression cs).1 ++ (expression cs).2 = cs := by
  obtain ⟨rest, h⟩ := expressionSteps_initial cs
  have hs := congrArg spell h
  rw [spell_append, spell_trace] at hs
  have hd := congrArg (List.drop (spell (expressionSteps cs)).length) hs
  rw [List.drop_left] at hd
  simp only [expression]
  rw [← hd, hs]

end Florin.Lexical
