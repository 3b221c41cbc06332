import Florin.Proofs.Scanning

/-! # The keyword and its places

The keyword is written only where a named shorthand is declared. The rest of an expansion is the same
for every keyword: the word `async` is taken back wherever the keywords put it in the output, and no
keyword ends in a character that the clean-up of an expression takes away.
-/
namespace Florin
open Text Lexical

/-- A piece of an expansion without its keyword. A hole stands for the keyword of the shorthand whose
sigil is at this place. -/
inductive Piece where
  | letter (c : Char)
  | hole (place : Nat)
  deriving DecidableEq, Repr

namespace Piece

def fill (w : Keyword) : Piece → List Char
  | .letter c => [c]
  | .hole _ => w.name.toList

def place? : Piece → Option Nat
  | .letter _ => none
  | .hole place => some place

def test (p : Char → Bool) : Piece → Bool
  | .letter c => p c
  | .hole _ => false

end Piece

abbrev Template := List Piece

namespace Template

def fill (w : Keyword) (t : Template) : List Char := t.flatMap (Piece.fill w)

def holes (t : Template) : List Nat := t.filterMap Piece.place?

def literal (cs : List Char) : Template := cs.map Piece.letter

@[simp] theorem fill_append (w : Keyword) (t u : Template) : fill w (t ++ u) = fill w t ++ fill w u :=
  List.flatMap_append

@[simp] theorem holes_append (t u : Template) : holes (t ++ u) = holes t ++ holes u :=
  List.filterMap_append

@[simp] theorem fill_literal (w : Keyword) (cs : List Char) : fill w (literal cs) = cs := by
  induction cs with
  | nil => rfl
  | cons c cs ih => exact congrArg (c :: ·) ih

@[simp] theorem holes_literal (cs : List Char) : holes (literal cs) = [] := by
  induction cs with
  | nil => rfl
  | cons c cs ih => exact ih

/-! ## The clean-up of an expression -/

theorem dropWhileEnd_concat {α : Type} (p : α → Bool) (xs : List α) (x : α) :
    dropWhileEnd p (xs ++ [x]) = if p x then dropWhileEnd p xs else xs ++ [x] := by
  cases h : p x <;> simp [dropWhileEnd, h]

theorem holes_dropWhileEnd (p : Char → Bool) (t : Template) :
    holes (dropWhileEnd (Piece.test p) t) = holes t := by
  induction t using List.reverseRecOn with
  | nil => rfl
  | append_singleton t piece ih =>
    rw [dropWhileEnd_concat]
    split
    · rename_i hp
      cases piece with
      | letter c =>
        rw [ih, holes_append]
        exact (List.append_nil _).symm
      | hole place => simp [Piece.test] at hp
    · rfl

theorem fill_dropWhileEnd {p : Char → Bool} (hp : ∀ w : Keyword, ∀ c ∈ w.name.toList, p c = false)
    (w : Keyword) (t : Template) : fill w (dropWhileEnd (Piece.test p) t) = dropWhileEnd p (fill w t) := by
  induction t using List.reverseRecOn with
  | nil => rfl
  | append_singleton t piece ih =>
    rw [dropWhileEnd_concat, fill_append]
    cases piece with
    | letter c =>
      change fill w (if p c = true then _ else _) = dropWhileEnd p (fill w t ++ [c])
      rw [dropWhileEnd_concat]
      split
      · exact ih
      · simp [fill, Piece.fill]
    | hole place =>
      have hkeep : dropWhileEnd p (fill w t ++ w.name.toList ++ []) = fill w t ++ w.name.toList := by
        refine dropWhileEnd_append (by simp) fun c hc => hp w c ?_
        rw [List.getLast?_append_of_ne_nil _ (by cases w <;> decide)] at hc
        exact List.mem_of_getLast? hc
      rw [List.append_nil] at hkeep
      simpa [fill, Piece.fill, Piece.test] using hkeep.symm

def clean (t : Template) : Template :=
  dropWhileEnd (Piece.test isBlank)
    (dropWhileEnd (Piece.test (· = ';')) (dropWhileEnd (Piece.test isBlank) t))

theorem holes_clean (t : Template) : holes t.clean = holes t := by
  simp only [clean, holes_dropWhileEnd]

theorem fill_clean (w : Keyword) (t : Template) : fill w t.clean = Shorthand.cleanExpression (fill w t) := by
  have hblank : ∀ w : Keyword, ∀ c ∈ w.name.toList, isBlank c = false := by
    intro w
    cases w <;> decide
  have hsemi : ∀ w : Keyword, ∀ c ∈ w.name.toList, decide (c = ';') = false := by
    intro w
    cases w <;> decide
  rw [clean, fill_dropWhileEnd hblank, fill_dropWhileEnd hsemi, fill_dropWhileEnd hblank]
  rfl

end Template

/-! ## Templates of expansions -/

namespace Shorthand

/-- The standard form behind the keyword, up to the parameters. -/
def behindKeyword (s : Shorthand) (isAsync : Bool) : List Char :=
  (match s.name with
    | some name => [' '] ++ name ++ [' ', '=', ' ']
    | none => ['(']) ++
  (if isAsync then asyncWord ++ [' '] else []) ++
  if s.body.isBlock && s.generator then "function* (".toList else ['(']

theorem standardFront_eq (s : Shorthand) (w : Keyword) (isAsync : Bool) :
    s.standardFront w isAsync = (if s.name.isSome then w.name.toList else []) ++ s.behindKeyword isAsync := by
  unfold standardFront behindKeyword
  cases s.name with
  | none => rfl
  | some name => simp only [Option.isSome_some, if_true, List.append_assoc]

/-- The standard form of the shorthand with its sigil at this place. -/
def template (s : Shorthand) (place : Nat) (isAsync : Bool) (params body : Template) : Template :=
  (if s.name.isSome then [.hole place] else []) ++ Template.literal (s.behindKeyword isAsync) ++
    (params ++ (Template.literal s.standardMiddle ++
      ((if s.body.isBlock then body else body.clean) ++ Template.literal s.standardClose)))

theorem fill_template (s : Shorthand) (place : Nat) (isAsync : Bool) (params body : Template)
    (w : Keyword) : (s.template place isAsync params body).fill w =
      s.standard w isAsync (params.fill w) (body.fill w) := by
  have hbody : (if s.body.isBlock then body else body.clean).fill w = s.standardBody (body.fill w) := by
    unfold standardBody
    split
    · rfl
    · exact Template.fill_clean w body
  have hname : Template.fill w (if s.name.isSome then [.hole place] else []) =
      if s.name.isSome then w.name.toList else [] := by
    cases s.name <;> simp [Template.fill, Piece.fill]
  simp only [template, Template.fill_append, Template.fill_literal, hbody, hname, standard_eq,
    standardFront_eq]

theorem holes_template (s : Shorthand) (place : Nat) (isAsync : Bool) (params body : Template) :
    (s.template place isAsync params body).holes =
      (if s.name.isSome then [place] else []) ++ (params.holes ++ body.holes) := by
  have hbody : (if s.body.isBlock then body else body.clean).holes = body.holes := by
    split
    · rfl
    · exact Template.holes_clean body
  have hname : Template.holes (if s.name.isSome then [.hole place] else []) =
      if s.name.isSome then [place] else [] := by
    cases s.name <;> rfl
  simp only [template, Template.holes_append, Template.holes_literal, hbody, hname, List.append_nil,
    List.nil_append]

end Shorthand

/-- The place of a named shorthand, which is declared. -/
def Attempt.declared? (a : Attempt) : Option Nat :=
  match a.outcome with
  | .leftover => none
  | .shorthand _ s => if s.name.isSome then some a.place else none

namespace Outline

/-- The rendering of an outline without the keyword, given the place of its start. -/
def template (place : Nat) : Outline → Template
  | .done => []
  | .text cs rest => Template.literal cs ++ rest.template (place + cs.length)
  | .leftover rest => .letter sigil :: rest.template (place + 1)
  | .shorthand gap s params body rest =>
    let start := place + (asyncPart gap).length + 1
    s.template (place + (asyncPart gap).length) gap.isSome (params.template (start + s.lead.length))
      (body.template (start + s.lead.length + s.params.length + s.middle.length)) ++
      rest.template (start + s.span.length)

theorem fill_template (o : Outline) (place : Nat) (w : Keyword) :
    (o.template place).fill w = o.render w := by
  induction o generalizing place with
  | done => rfl
  | text cs rest ih => rw [template, Template.fill_append, Template.fill_literal, ih, render]
  | leftover rest ih => exact congrArg (sigil :: ·) (ih _)
  | shorthand gap s params body rest ihParams ihBody ihRest =>
    rw [template, Template.fill_append, Shorthand.fill_template, ihParams, ihBody, ihRest, render]

/-- The holes are those of the named shorthands, one for each. -/
theorem holes_template (o : Outline) (place : Nat) :
    (o.template place).holes = (o.attempts place).filterMap Attempt.declared? := by
  induction o generalizing place with
  | done => rfl
  | text cs rest ih => rw [template, Template.holes_append, Template.holes_literal, ih]; rfl
  | leftover rest ih => exact ih _
  | shorthand gap s params body rest ihParams ihBody ihRest =>
    simp only [template, attempts, Template.holes_append, Shorthand.holes_template, ihParams, ihBody,
      ihRest, List.filterMap_cons, List.filterMap_append, Attempt.declared?]
    cases s.name <;> simp

end Outline

example : ((Outline.ofText "async ƒ f(a) ƒ(b) ƒ g {ƒ}".toList).template 0).holes = [6, 18] := by
  decide +kernel

/-- The keyword changes nothing but itself: a source text has one template, which gives the output of the
scan, and so the expansion, with every keyword, and with every keyword the scan recognises the same
shorthands and leaves the same sigils. The template has one hole for each named shorthand. -/
theorem Scan.exists_template (source : String) : ∃ (t : Template) (attempts : List Attempt),
    t.holes = attempts.filterMap Attempt.declared? ∧
    attempts.Pairwise (fun a b => a.place < b.place) ∧
    ∀ w, ofText w source.toList = ⟨t.fill w, attempts⟩ ∧ expandText w source = String.ofList (t.fill w) := by
  refine ⟨(Outline.ofText source.toList).template 0, (Outline.ofText source.toList).attempts 0,
    Outline.holes_template _ 0, Outline.pairwise_attempts _ _ _ 0, fun w => ?_⟩
  rw [Outline.fill_template, Scan.ofText_eq, expandText, expand_eq_render]
  exact ⟨rfl, rfl⟩

end Florin
