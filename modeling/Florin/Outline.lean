import Florin.Shorthand

/-! # Outlines

The outline of a source text cuts it into stretches that stay as they are, sigils that start no
shorthand, and shorthands with the outlines of their parameters and of their body. The outline
depends on the text alone and spells it.
-/
namespace Florin
open Text Lexical

/-- The gap of an asynchronous shorthand is the run of blanks between its word `async` and the
sigil. -/
inductive Outline where
  | done
  | text (cs : List Char) (rest : Outline)
  | leftover (rest : Outline)
  | shorthand (gap : Option (List Char)) (s : Shorthand) (params body rest : Outline)
  deriving DecidableEq, Repr

def asyncWord : List Char := ['a', 's', 'y', 'n', 'c']

def asyncPart : Option (List Char) → List Char
  | none => []
  | some gap => asyncWord ++ gap

structure Opening where
  gap : Option (List Char)
  shorthand : Shorthand
  rest : List Char
  deriving DecidableEq, Repr

namespace Opening

def plain? : List Char → Option Opening
  | [] => none
  | c :: cs => if c = sigil then (Shorthand.read? cs).map fun r => ⟨none, r.1, r.2⟩ else none

/-- The word `async` and blanks may stand before the sigil. -/
def async? : List Char → Option Opening
  | 'a' :: 's' :: 'y' :: 'n' :: 'c' :: cs =>
    (plain? (skipBlanks cs)).map fun o => { o with gap := some (cs.takeWhile isBlank) }
  | _ => none

/-- The shorthand at the head of a text in code. A word that goes on with the identifier before it
is not `async`. -/
def read? (joined : Bool) (cs : List Char) : Option Opening :=
  (plain? cs).or (if joined then none else async? cs)

def joins (o : Opening) : Bool := o.shorthand.span.getLast?.any Identifier.isContinue

theorem plain?_append {cs : List Char} {o : Opening} (h : plain? cs = some o) :
    o.gap = none ∧ cs = sigil :: (o.shorthand.span ++ o.rest) := by
  cases cs with
  | nil => simp [plain?] at h
  | cons c cs =>
    rw [plain?] at h
    split at h
    · rename_i hc
      obtain ⟨⟨s, rest⟩, hr, rfl⟩ := Option.map_eq_some_iff.mp h
      exact ⟨rfl, by rw [hc, Shorthand.read?_append hr]⟩
    · simp at h

theorem async?_append {cs : List Char} {o : Opening} (h : async? cs = some o) :
    cs = asyncPart o.gap ++ sigil :: (o.shorthand.span ++ o.rest) := by
  unfold async? at h
  split at h
  · rename_i cs
    obtain ⟨p, hp, rfl⟩ := Option.map_eq_some_iff.mp h
    rw [← (plain?_append hp).2]
    simp [asyncPart, asyncWord, skipBlanks, List.takeWhile_append_dropWhile]
  · simp at h

theorem read?_append {joined : Bool} {cs : List Char} {o : Opening} (h : read? joined cs = some o) :
    cs = asyncPart o.gap ++ sigil :: (o.shorthand.span ++ o.rest) := by
  rcases Option.or_eq_some_iff.mp h with hp | ⟨-, ha⟩
  · rw [(plain?_append hp).1]
    exact (plain?_append hp).2
  · split at ha
    · simp at ha
    · exact async?_append ha

theorem read?_length_lt {joined : Bool} {cs : List Char} {o : Opening}
    (h : read? joined cs = some o) : o.shorthand.span.length + o.rest.length < cs.length := by
  have happ := congrArg List.length (read?_append h)
  simp only [List.length_append, List.length_cons] at happ
  omega

end Opening

namespace Outline

/-- Reads a text in a lexical context; `joined` says whether the character before it continues an
identifier. -/
def read (k : Context) (joined : Bool) (cs : List Char) : Outline :=
  match _h : if k.isCode then Opening.read? joined cs else none with
  | some o =>
    .shorthand o.gap o.shorthand (read .start false o.shorthand.params)
      (read .start false o.shorthand.body.text) (read k o.joins o.rest)
  | none =>
    match cs with
    | [] => .done
    | [c] => if k.isCode && c = sigil then .leftover .done else .text [c] .done
    | c :: d :: rest =>
      if k.isCode && c = sigil then .leftover (read k true (d :: rest))
      else if (k.step c (some d)).2 then
        .text [c, d] (read (k.step c (some d)).1 (Identifier.isContinue d) rest)
      else .text [c] (read (k.step c (some d)).1 (Identifier.isContinue c) (d :: rest))
termination_by cs.length
decreasing_by
  · have hlt := Opening.read?_length_lt (Option.ite_none_right_eq_some.mp _h).2
    have hle := o.shorthand.params_length_le_span
    omega
  · have hlt := Opening.read?_length_lt (Option.ite_none_right_eq_some.mp _h).2
    have hle := o.shorthand.body_length_le_span
    omega
  · have hlt := Opening.read?_length_lt (Option.ite_none_right_eq_some.mp _h).2
    omega
  all_goals simp only [List.length_cons]; omega

def ofText (cs : List Char) : Outline := read .start false cs

def source : Outline → List Char
  | .done => []
  | .text cs rest => cs ++ rest.source
  | .leftover rest => sigil :: rest.source
  | .shorthand gap s params body rest =>
    asyncPart gap ++ sigil ::
      (s.lead ++ params.source ++ s.middle ++ body.source ++ s.close ++ rest.source)

theorem source_read (k : Context) (joined : Bool) (cs : List Char) :
    (read k joined cs).source = cs := by
  fun_induction read k joined cs with
  | case1 k joined cs o h ihParams ihBody ihRest =>
    rw [source, ihParams, ihBody, ihRest]
    exact (Opening.read?_append (Option.ite_none_right_eq_some.mp h).2).symm
  | case2 => rfl
  | case3 k joined c h hs =>
    simp only [Bool.and_eq_true, decide_eq_true_eq] at hs
    simp [source, hs.2]
  | case4 => rfl
  | case5 k joined c d rest h hs ih =>
    simp only [Bool.and_eq_true, decide_eq_true_eq] at hs
    rw [source, ih, hs.2]
  | case6 k joined c d rest h hs hw ih => rw [source, ih]; rfl
  | case7 k joined c d rest h hs hw ih => rw [source, ih]; rfl

theorem source_ofText (cs : List Char) : (ofText cs).source = cs := source_read .start false cs

/-- Where the leftover sigils are, in the order in which they are met: each place counts the
characters before the sigil in the text, the parameters or the body around it. -/
def leftovers (place : Nat) : Outline → List Nat
  | .done => []
  | .text cs rest => rest.leftovers (place + cs.length)
  | .leftover rest => place :: rest.leftovers (place + 1)
  | .shorthand gap s params body rest =>
    params.leftovers 0 ++ body.leftovers 0 ++
      rest.leftovers (place + (asyncPart gap).length + 1 + s.span.length)

end Outline

end Florin
