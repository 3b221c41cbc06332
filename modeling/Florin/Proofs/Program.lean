import Florin.Expansion
import Florin.Proofs.Lexical.Balance

/-! # Program trees

A program is a list of texts, brackets around programs, and functions in shorthand. It is printed
with its shorthands and written out with arrow functions. The side conditions of a valid program say
what keeps the printed pieces apart.
-/
namespace Florin
open Text Lexical

/-- A function apart from its parameters and its body. -/
structure Head where
  isAsync : Bool
  generator : Bool
  name : Option (List Char)
  deriving DecidableEq, Repr

/-- A nullary shorthand has a block and no parentheses; an arrow has an expression for a body. -/
inductive Program where
  | done
  | text (cs : List Char) (rest : Program)
  | group (b : Bracket) (inner rest : Program)
  | nullary (head : Head) (body rest : Program)
  | block (head : Head) (params body rest : Program)
  | arrow (isAsync : Bool) (name : Option (List Char)) (params body rest : Program)
  deriving DecidableEq, Repr

namespace Head

/-- The source up to the parameters. -/
def print (h : Head) : List Char :=
  (if h.isAsync then "async ".toList else []) ++
    (sigil :: (if h.generator then ['*', ' '] else [' ']) ++ h.name.getD [])

/-- A function with a block. -/
def withBlock (h : Head) (params body : List Char) : List Char :=
  (if h.isAsync then "async ".toList else []) ++
    if h.generator then
      "function* ".toList ++ Bracket.paren.around params ++ " ".toList ++ Bracket.curly.around body
    else Bracket.paren.around params ++ " => ".toList ++ Bracket.curly.around body

/-- A function with an expression for a body. -/
def withExpression (h : Head) (params body : List Char) : List Char :=
  (if h.isAsync then "async ".toList else []) ++ Bracket.paren.around params ++ " => ".toList ++ body

/-- A named function is declared, another one stands in parentheses. The declaration ends in a
semicolon unless it stands at the end of an expression body. -/
def declare (h : Head) (k : Keyword) (isLast : Bool) (function : List Char) : List Char :=
  match h.name with
  | some name =>
    k.name.toList ++ ' ' :: name ++ " = ".toList ++ function ++ if isLast then [] else [';']
  | none => Bracket.paren.around function

/-- The name is an identifier. -/
def Valid (h : Head) : Prop :=
  ∀ name ∈ h.name, name.head?.any Identifier.isStart = true ∧
    ∀ c ∈ name, Identifier.isContinue c = true

end Head

namespace Program

/-- The program in shorthand. -/
def print : Program → List Char
  | .done => []
  | .text cs rest => cs ++ rest.print
  | .group b inner rest => b.around inner.print ++ rest.print
  | .nullary head body rest => head.print ++ ' ' :: (Bracket.curly.around body.print ++ rest.print)
  | .block head params body rest =>
    head.print ++ (Bracket.paren.around params.print ++
      ' ' :: (Bracket.curly.around body.print ++ rest.print))
  | .arrow isAsync name params body rest =>
    Head.print ⟨isAsync, false, name⟩ ++ (Bracket.paren.around params.print ++
      ' ' :: (body.print ++ rest.print))

/-- The program with arrow functions and function expressions. -/
def write (k : Keyword) (isBody : Bool) : Program → List Char
  | .done => []
  | .text cs rest => cs ++ rest.write k isBody
  | .group b inner rest => b.around (inner.write k false) ++ rest.write k isBody
  | .nullary head body rest =>
    head.declare k (isBody && rest.print.isEmpty) (head.withBlock [] (body.write k false)) ++
      rest.write k isBody
  | .block head params body rest =>
    head.declare k (isBody && rest.print.isEmpty)
      (head.withBlock (params.write k false) (body.write k false)) ++ rest.write k isBody
  | .arrow isAsync name params body rest =>
    let head : Head := ⟨isAsync, false, name⟩
    head.declare k (isBody && rest.print.isEmpty)
      (head.withExpression (params.write k false) (body.write k true)) ++ rest.write k isBody

/-! ## Valid programs -/

/-- A text ends in code and has neither sigils nor brackets there. -/
def IsText (cs : List Char) : Prop :=
  Context.start.run cs = .start ∧ Lacks (sigil :: Bracket.all) cs

/-- The text ends in the word `async` and blanks. -/
def EndsInAsync (cs : List Char) : Prop :=
  asyncWord <:+ trimEnd cs ∧
    ((trimEnd cs).take ((trimEnd cs).length - asyncWord.length)).getLast?.any
      Identifier.isContinue = false

/-- The text may stand before the shorthand. -/
def MayPrecede (cs : List Char) (isAsync : Bool) : Prop :=
  if isAsync then cs.getLast?.any Identifier.isContinue = false else ¬EndsInAsync cs

/-- What may follow a text directly: no other text, and no shorthand that would run into it. -/
def Follows (cs : List Char) : Program → Prop
  | .done => True
  | .text .. => False
  | .group .. => True
  | .nullary head .. => MayPrecede cs head.isAsync
  | .block head .. => MayPrecede cs head.isAsync
  | .arrow isAsync .. => MayPrecede cs isAsync

/-- What may follow an expression: a text that goes on with a comma or a semicolon after a gap, or
nothing but a gap. -/
def FollowsExpression (body : List Char) : Program → Prop
  | .done => True
  | .text cs rest => ¬(body.getLast? = some '/' ∧ cs.head? = some '/') ∧
      ∃ n ≤ cs.length, IsGap (cs.take n) ∧ ((cs.drop n).head? = some ',' ∨
        (cs.drop n).head? = some ';' ∨ (cs.drop n = [] ∧ rest = .done))
  | _ => False

/-- The texts of the list itself, not those inside of brackets and shorthands. -/
def ownTexts : Program → List (List Char)
  | .done => []
  | .text cs rest => cs :: rest.ownTexts
  | .group _ _ rest => rest.ownTexts
  | .nullary _ _ rest => rest.ownTexts
  | .block _ _ _ rest => rest.ownTexts
  | .arrow _ _ _ _ rest => rest.ownTexts

/-- The body of an arrow has no blanks around it, is no block and has no comma or semicolon outside
of its brackets. -/
structure IsExpression (p : Program) : Prop where
  first : p.print.head?.any (fun c => !isBlank c && c ≠ '{') = true
  last : p.print.getLast?.any (fun c => !isBlank c) = true
  texts : ∀ cs ∈ p.ownTexts, Lacks [',', ';'] cs

def Valid : Program → Prop
  | .done => True
  | .text cs rest => IsText cs ∧ rest.Follows cs ∧ rest.Valid
  | .group _ inner rest => inner.Valid ∧ rest.Valid
  | .nullary head body rest => head.Valid ∧ body.Valid ∧ rest.Valid
  | .block head params body rest => head.Valid ∧ params.Valid ∧ body.Valid ∧ rest.Valid
  | .arrow isAsync name params body rest =>
    Head.Valid ⟨isAsync, false, name⟩ ∧ params.Valid ∧ body.Valid ∧ body.IsExpression ∧
      rest.FollowsExpression body.print ∧ rest.Valid

/-! ## Deciding validity -/

instance (h : Head) : Decidable h.Valid :=
  inferInstanceAs (Decidable (∀ name ∈ h.name, _ = true ∧ ∀ c ∈ name, _ = true))

instance (cs : List Char) : Decidable (IsText cs) :=
  inferInstanceAs (Decidable (Context.start.run cs = .start ∧ Lacks _ cs))

instance (cs : List Char) : Decidable (EndsInAsync cs) :=
  inferInstanceAs (Decidable (asyncWord <:+ trimEnd cs ∧ _ = false))

instance (cs : List Char) (isAsync : Bool) : Decidable (MayPrecede cs isAsync) :=
  inferInstanceAs (Decidable (if isAsync then _ = false else ¬EndsInAsync cs))

instance (cs : List Char) : (p : Program) → Decidable (p.Follows cs)
  | .done => isTrue trivial
  | .text .. => isFalse id
  | .group .. => isTrue trivial
  | .nullary head .. => inferInstanceAs (Decidable (MayPrecede cs head.isAsync))
  | .block head .. => inferInstanceAs (Decidable (MayPrecede cs head.isAsync))
  | .arrow isAsync .. => inferInstanceAs (Decidable (MayPrecede cs isAsync))

instance (body : List Char) : (p : Program) → Decidable (p.FollowsExpression body)
  | .done => isTrue trivial
  | .text cs rest => inferInstanceAs (Decidable (¬(_ ∧ _) ∧ ∃ n ≤ cs.length, IsGap (cs.take n) ∧
      (_ ∨ _ ∨ (cs.drop n = [] ∧ rest = .done))))
  | .group .. => isFalse id
  | .nullary .. => isFalse id
  | .block .. => isFalse id
  | .arrow .. => isFalse id

instance (p : Program) : Decidable p.IsExpression :=
  decidable_of_iff (_ ∧ _ ∧ ∀ cs ∈ p.ownTexts, Lacks [',', ';'] cs)
    ⟨fun h => ⟨h.1, h.2.1, h.2.2⟩, fun h => ⟨h.first, h.last, h.texts⟩⟩

def decideValid : (p : Program) → Decidable p.Valid
  | .done => isTrue trivial
  | .text cs rest =>
    have := decideValid rest
    inferInstanceAs (Decidable (IsText cs ∧ rest.Follows cs ∧ rest.Valid))
  | .group _ inner rest =>
    have := decideValid inner
    have := decideValid rest
    inferInstanceAs (Decidable (inner.Valid ∧ rest.Valid))
  | .nullary head body rest =>
    have := decideValid body
    have := decideValid rest
    inferInstanceAs (Decidable (head.Valid ∧ body.Valid ∧ rest.Valid))
  | .block head params body rest =>
    have := decideValid params
    have := decideValid body
    have := decideValid rest
    inferInstanceAs (Decidable (head.Valid ∧ params.Valid ∧ body.Valid ∧ rest.Valid))
  | .arrow isAsync name params body rest =>
    have := decideValid params
    have := decideValid body
    have := decideValid rest
    inferInstanceAs (Decidable (Head.Valid ⟨isAsync, false, name⟩ ∧ params.Valid ∧ body.Valid ∧
      body.IsExpression ∧ rest.FollowsExpression body.print ∧ rest.Valid))

instance (p : Program) : Decidable p.Valid := decideValid p

end Program

end Florin
