/-! # Lexical contexts

A context says whether a place in a source text is code, or lies inside a string, a comment or
a template literal. One step reads one character, or two where a pair of characters has one
meaning. The trace of a text is its list of steps, and it spells the text. The steps can also be
followed only as far as a state goes on with them.
-/
namespace Florin.Lexical

inductive Region where
  | code
  | singleQuoted
  | doubleQuoted
  | lineComment
  | blockComment
  | template
  | interpolation
  deriving DecidableEq, Repr

/-- One counter stands for each open template literal, the innermost first: the braces that are
open in its current interpolation. -/
structure Context where
  region : Region
  templates : List Nat
  deriving DecidableEq, Repr

def backtick : Char := '\x60'

namespace Context

def start : Context := ⟨.code, []⟩

def isCode (k : Context) : Bool := k.region = .code

def enter (k : Context) (r : Region) : Context := { k with region := r }

/-- A closed literal leads back into the interpolation around it, or else into code. -/
def leave (k : Context) : Context :=
  k.enter (if k.templates.isEmpty then .code else .interpolation)

def openTemplate (k : Context) : Context := ⟨.template, 0 :: k.templates⟩

def closeTemplate (k : Context) : Context := leave { k with templates := k.templates.tail }

def openBrace (k : Context) : Context :=
  match k.templates with
  | [] => k
  | depth :: outer => { k with templates := (depth + 1) :: outer }

/-- A brace that closes none of the open ones ends the interpolation. -/
def closeBrace (k : Context) : Context :=
  match k.templates with
  | (depth + 1) :: outer => { k with templates := depth :: outer }
  | _ => k.enter .template

def stepCode (k : Context) (c : Char) (next : Option Char) : Context × Bool :=
  if c = '\'' then (k.enter .singleQuoted, false)
  else if c = '"' then (k.enter .doubleQuoted, false)
  else if c = backtick then (k.openTemplate, false)
  else if c = '/' && next = some '/' then (k.enter .lineComment, true)
  else if c = '/' && next = some '*' then (k.enter .blockComment, true)
  else (k, false)

def stepQuoted (quote : Char) (k : Context) (c : Char) : Context × Bool :=
  if c = '\\' then (k, true)
  else if c = quote then (k.leave, false)
  else (k, false)

def stepTemplate (k : Context) (c : Char) (next : Option Char) : Context × Bool :=
  if c = '\\' then (k, true)
  else if c = backtick then (k.closeTemplate, false)
  else if c = '$' && next = some '{' then (k.enter .interpolation, true)
  else (k, false)

/-- Comments are not told apart inside an interpolation. -/
def stepInterpolation (k : Context) (c : Char) : Context × Bool :=
  if c = '\'' then (k.enter .singleQuoted, false)
  else if c = '"' then (k.enter .doubleQuoted, false)
  else if c = backtick then (k.openTemplate, false)
  else if c = '{' then (k.openBrace, false)
  else if c = '}' then (k.closeBrace, false)
  else (k, false)

/-- The context after the character, and whether the step takes the next character too. -/
def step (k : Context) (c : Char) (next : Option Char) : Context × Bool :=
  match k.region with
  | .code => k.stepCode c next
  | .singleQuoted => k.stepQuoted '\'' c
  | .doubleQuoted => k.stepQuoted '"' c
  | .lineComment => if c = '\n' then (k.leave, false) else (k, false)
  | .blockComment => if c = '*' && next = some '/' then (k.leave, true) else (k, false)
  | .template => k.stepTemplate c next
  | .interpolation => k.stepInterpolation c

end Context

structure Step where
  before : Context
  text : List Char
  after : Context
  deriving DecidableEq, Repr

/-- The steps over a text; a pair cut short by the end of the text is a step of one character. -/
def trace (k : Context) : List Char → List Step
  | [] => []
  | [c] => [⟨k, [c], (k.step c none).1⟩]
  | c :: d :: rest =>
    if (k.step c (some d)).2 then
      ⟨k, [c, d], (k.step c (some d)).1⟩ :: trace (k.step c (some d)).1 rest
    else
      ⟨k, [c], (k.step c (some d)).1⟩ :: trace (k.step c (some d)).1 (d :: rest)

def spell (steps : List Step) : List Char := steps.flatMap Step.text

@[simp] theorem spell_nil : spell [] = [] := rfl

@[simp] theorem spell_cons (s : Step) (steps : List Step) :
    spell (s :: steps) = s.text ++ spell steps := rfl

theorem spell_append (xs ys : List Step) : spell (xs ++ ys) = spell xs ++ spell ys := by
  simp [spell]

theorem spell_trace (k : Context) (cs : List Char) : spell (trace k cs) = cs := by
  fun_induction trace k cs <;> simp_all

/-- Follows the steps over a text as long as a state goes on with them: the steps so far, and the
text from the step on that has no next state. -/
def stepsWhile (next : σ → Step → Option σ) (state : σ) (k : Context) :
    List Char → List Step × List Char
  | [] => ([], [])
  | [c] =>
    match next state ⟨k, [c], (k.step c none).1⟩ with
    | none => ([], [c])
    | some _ => ([⟨k, [c], (k.step c none).1⟩], [])
  | c :: d :: rest =>
    if (k.step c (some d)).2 then
      match next state ⟨k, [c, d], (k.step c (some d)).1⟩ with
      | none => ([], c :: d :: rest)
      | some state =>
        (stepsWhile next state (k.step c (some d)).1 rest).map
          (⟨k, [c, d], (k.step c (some d)).1⟩ :: ·) id
    else
      match next state ⟨k, [c], (k.step c (some d)).1⟩ with
      | none => ([], c :: d :: rest)
      | some state =>
        (stepsWhile next state (k.step c (some d)).1 (d :: rest)).map
          (⟨k, [c], (k.step c (some d)).1⟩ :: ·) id

theorem stepsWhile_append (next : σ → Step → Option σ) (state : σ) (k : Context) (cs : List Char) :
    spell (stepsWhile next state k cs).1 ++ (stepsWhile next state k cs).2 = cs := by
  fun_induction stepsWhile next state k cs with
  | case1 => rfl
  | case2 => rfl
  | case3 => rfl
  | case4 => rfl
  | case5 state k c d rest _ _ _ ih => exact congrArg (c :: d :: ·) ih
  | case6 => rfl
  | case7 state k c d rest _ _ _ ih => exact congrArg (c :: ·) ih

theorem stepsWhile_initial (next : σ → Step → Option σ) (state : σ) (k : Context) (cs : List Char) :
    (stepsWhile next state k cs).1 <+: trace k cs := by
  fun_induction stepsWhile next state k cs with
  | case1 => exact List.nil_prefix
  | case2 => exact List.nil_prefix
  | case3 => exact List.prefix_refl _
  | case4 => exact List.nil_prefix
  | case5 state k c d rest h _ _ ih =>
    rw [trace, if_pos h]
    exact (List.prefix_cons_inj _).mpr ih
  | case6 => exact List.nil_prefix
  | case7 state k c d rest h _ _ ih =>
    rw [trace, if_neg h]
    exact (List.prefix_cons_inj _).mpr ih

theorem exists_of_stepsWhile_eq {next : σ → Step → Option σ} {state : σ} {k : Context}
    {cs rest : List Char} {steps : List Step} {c : Char}
    (h : stepsWhile next state k cs = (steps, c :: rest)) :
    ∃ (last : σ) (s : Step), next last s = none ∧ s.text.head? = some c := by
  fun_induction stepsWhile next state k cs generalizing steps with
  | case1 => simp at h
  | case2 last k d hn => exact ⟨last, _, hn, congrArg List.head? (Prod.mk.inj h).2⟩
  | case3 => simp at h
  | case4 last k d e more _ hn => exact ⟨last, _, hn, congrArg List.head? (Prod.mk.inj h).2⟩
  | case5 state k d e more _ _ _ ih => exact ih (Prod.ext rfl (Prod.mk.inj h).2)
  | case6 last k d e more _ hn => exact ⟨last, _, hn, congrArg List.head? (Prod.mk.inj h).2⟩
  | case7 state k d e more _ _ _ ih => exact ih (Prod.ext rfl (Prod.mk.inj h).2)

def Context.run (k : Context) (cs : List Char) : Context :=
  (trace k cs).foldl (fun _ s => s.after) k

def Step.isCodeChar (s : Step) (c : Char) : Bool := s.before.isCode && s.text.head? = some c

end Florin.Lexical
