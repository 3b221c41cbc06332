import Florin.Lexical.Context

/-! # Brackets in code

The three kinds of brackets, how deep each kind is open, and where an opened bracket is closed.
Only brackets in code count.
-/
namespace Florin.Lexical

inductive Bracket where
  | paren
  | square
  | curly
  deriving DecidableEq, Repr

namespace Bracket

def opener : Bracket → Char
  | .paren => '('
  | .square => '['
  | .curly => '{'

def closer : Bracket → Char
  | .paren => ')'
  | .square => ']'
  | .curly => '}'

def ofOpener? (c : Char) : Option Bracket :=
  [paren, square, curly].find? fun b => b.opener = c

def ofCloser? (c : Char) : Option Bracket :=
  [paren, square, curly].find? fun b => b.closer = c

theorem ofOpener?_opener (b : Bracket) : ofOpener? b.opener = some b := by cases b <;> decide

theorem ofCloser?_closer (b : Bracket) : ofCloser? b.closer = some b := by cases b <;> decide

/-- The depth after a step: an opener of this kind in code adds one, a closer takes one away. -/
def depthAfter (b : Bracket) (depth : Nat) (s : Step) : Nat :=
  if s.isCodeChar b.opener then depth + 1
  else if s.isCodeChar b.closer then depth - 1
  else depth

/-- The depth after a step inside the bracket; the closer that belongs to its opener ends it. -/
def inside? (b : Bracket) (depth : Nat) (s : Step) : Option Nat :=
  if s.isCodeChar b.closer && depth = 0 then none else some (b.depthAfter depth s)

theorem isCodeChar_of_inside? {b : Bracket} {depth : Nat} {s : Step}
    (h : b.inside? depth s = none) : s.isCodeChar b.closer = true ∧ depth = 0 := by
  simpa [inside?] using h

def enclosed? (b : Bracket) (afterOpener : List Char) : Option (List Char × List Char) :=
  match stepsWhile b.inside? 0 .start afterOpener with
  | (inner, _ :: rest) => some (spell inner, rest)
  | (_, []) => none

theorem enclosed?_append {b : Bracket} {cs inner rest : List Char}
    (h : b.enclosed? cs = some (inner, rest)) : cs = inner ++ b.closer :: rest := by
  unfold enclosed? at h
  split at h
  · rename_i steps c after he
    obtain ⟨rfl, rfl⟩ := Prod.mk.inj (Option.some.inj h)
    obtain ⟨depth, s, hs, hc⟩ := exists_of_stepsWhile_eq he
    have hcloser := (Bool.and_eq_true_iff.mp (isCodeChar_of_inside? hs).1).2
    have happ := stepsWhile_append b.inside? 0 .start cs
    rw [he] at happ
    simp only [hc, decide_eq_true_eq, Option.some.injEq] at hcloser
    rw [← happ, hcloser]
  · simp at h

end Bracket

structure Nesting where
  paren : Nat
  square : Nat
  curly : Nat
  deriving DecidableEq, Repr

namespace Nesting

def zero : Nesting := ⟨0, 0, 0⟩

def count (n : Nesting) : Bracket → Nat
  | .paren => n.paren
  | .square => n.square
  | .curly => n.curly

def put (n : Nesting) (b : Bracket) (depth : Nat) : Nesting :=
  match b with
  | .paren => { n with paren := depth }
  | .square => { n with square := depth }
  | .curly => { n with curly := depth }

theorem count_put (n : Nesting) (b b' : Bracket) (depth : Nat) :
    (n.put b depth).count b' = if b' = b then depth else n.count b' := by
  cases b <;> cases b' <;> rfl

end Nesting

end Florin.Lexical
