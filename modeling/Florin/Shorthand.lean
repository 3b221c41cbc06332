import Florin.Lexical.Expression
import Florin.Text.Identifier

/-! # Function shorthands

A sigil in code starts a function shorthand: an optional star, an optional name, optional
parameters in parentheses, and a body, which is a block in braces or a bare expression. A
generator has a block. The parts of a shorthand spell it, in this order: the lead, the parameters,
the middle, the body and the close.
-/
namespace Florin
open Text Lexical

/-- The letter f with a hook. -/
def sigil : Char := '\u0192'

theorem isContinue_sigil : Identifier.isContinue sigil = true := by decide

inductive Body where
  | block (text : List Char)
  | expression (text : List Char)
  deriving DecidableEq, Repr

def Body.text : Body → List Char
  | .block cs => cs
  | .expression cs => cs

/-- Absent parameters are empty ones. The lead starts after the sigil. -/
structure Shorthand where
  generator : Bool
  name : Option (List Char)
  lead : List Char
  params : List Char
  middle : List Char
  body : Body
  close : List Char
  deriving DecidableEq, Repr

def Shorthand.span (s : Shorthand) : List Char :=
  s.lead ++ s.params ++ s.middle ++ s.body.text ++ s.close

def textBefore (cs rest : List Char) : List Char := cs.take (cs.length - rest.length)

theorem textBefore_append {cs rest : List Char} (h : rest <:+ cs) :
    textBefore cs rest ++ rest = cs := by
  obtain ⟨front, rfl⟩ := h
  simp [textBefore]

/-- A stretch of a text: the text from its start on, the stretch itself, and the text from which the
reading goes on. -/
structure Stretch where
  source : List Char
  text : List Char
  rest : List Char
  deriving DecidableEq, Repr

namespace Stretch

def Fits (s : Stretch) : Prop := ∃ after : List Char, s.source = s.text ++ after ∧ s.rest <:+ after

theorem Fits.drop {s : Stretch} (h : s.Fits) :
    s.text ++ s.source.drop s.text.length = s.source ∧ s.rest <:+ s.source.drop s.text.length := by
  obtain ⟨after, ha, hr⟩ := h
  rw [ha, List.drop_left]
  exact ⟨rfl, hr⟩

def after (s : Stretch) (rest : List Char) : List Char :=
  textBefore (s.source.drop s.text.length) rest

end Stretch

namespace Shorthand

def readStar (cs : List Char) : Bool × List Char :=
  match skipBlanks cs with
  | '*' :: rest => (true, skipBlanks rest)
  | rest => (false, rest)

def readName (cs : List Char) : Option (List Char) × List Char :=
  match Identifier.read? cs with
  | some (name, rest) => (some name, skipBlanks rest)
  | none => (none, cs)

/-- Fails on parentheses that are not closed. -/
def readParams? (cs : List Char) : Option Stretch :=
  match cs with
  | '(' :: inside => (Bracket.paren.enclosed? inside).map fun r => ⟨inside, r.1, skipBlanks r.2⟩
  | _ => some ⟨cs, [], cs⟩

/-- Fails on braces that are not closed, on an empty expression, and where a generator has an
expression. -/
def readBody? (generator : Bool) (cs : List Char) : Option (Body × Stretch) :=
  match cs with
  | '{' :: inside =>
    (Bracket.curly.enclosed? inside).map fun r => (.block r.1, ⟨inside, r.1, r.2⟩)
  | _ =>
    if generator || (expression cs).1.isEmpty then none
    else some (.expression (expression cs).1, ⟨cs, (expression cs).1, (expression cs).2⟩)

/-- Reads a shorthand from the text after its sigil; gives back the text after the shorthand. -/
def read? (cs : List Char) : Option (Shorthand × List Char) :=
  let star := readStar cs
  let name := readName star.2
  (readParams? name.2).bind fun params =>
    (readBody? star.1 params.rest).map fun (body, inside) =>
      (⟨star.1, name.1, textBefore cs params.source, params.text, params.after inside.source, body,
        inside.after inside.rest⟩, inside.rest)

theorem skipBlanks_suffix (cs : List Char) : skipBlanks cs <:+ cs := List.dropWhile_suffix _

theorem readStar_suffix (cs : List Char) : (readStar cs).2 <:+ cs := by
  unfold readStar
  split
  · rename_i rest h
    have hstar := (skipBlanks_suffix rest).trans (List.suffix_cons '*' rest)
    exact hstar.trans (h ▸ skipBlanks_suffix cs)
  · exact skipBlanks_suffix cs

theorem readName_suffix (cs : List Char) : (readName cs).2 <:+ cs := by
  unfold readName
  split
  · rename_i name rest h
    exact (skipBlanks_suffix rest).trans ⟨name, Identifier.append_of_read? h⟩
  · exact List.suffix_refl cs

theorem readParams?_fits {cs : List Char} {s : Stretch} (h : readParams? cs = some s) :
    s.Fits ∧ s.source <:+ cs := by
  unfold readParams? at h
  split at h
  · rename_i inside
    obtain ⟨⟨inner, after⟩, he, rfl⟩ := Option.map_eq_some_iff.mp h
    obtain rfl := Bracket.enclosed?_append he
    exact ⟨⟨_, rfl, (skipBlanks_suffix after).trans (List.suffix_cons _ _)⟩, List.suffix_cons _ _⟩
  · obtain rfl := Option.some.inj h
    exact ⟨⟨cs, rfl, List.suffix_refl cs⟩, List.suffix_refl cs⟩

theorem readBody?_fits {generator : Bool} {cs : List Char} {body : Body} {s : Stretch}
    (h : readBody? generator cs = some (body, s)) :
    s.Fits ∧ s.source <:+ cs ∧ body.text = s.text := by
  unfold readBody? at h
  split at h
  · rename_i inside
    obtain ⟨⟨inner, after⟩, he, hp⟩ := Option.map_eq_some_iff.mp h
    obtain rfl := Bracket.enclosed?_append he
    obtain ⟨rfl, rfl⟩ := Prod.mk.inj hp
    exact ⟨⟨_, rfl, List.suffix_cons _ _⟩, List.suffix_cons _ _, rfl⟩
  · split at h
    · simp at h
    · obtain ⟨rfl, rfl⟩ := Prod.mk.inj (Option.some.inj h)
      exact ⟨⟨(expression cs).2, (expression_append cs).symm, List.suffix_refl _⟩,
        List.suffix_refl cs, rfl⟩

theorem read?_append {cs rest : List Char} {s : Shorthand} (h : read? cs = some (s, rest)) :
    s.span ++ rest = cs := by
  obtain ⟨params, hp, hb⟩ := Option.bind_eq_some_iff.mp h
  obtain ⟨⟨body, inside⟩, hbody, he⟩ := Option.map_eq_some_iff.mp hb
  obtain ⟨rfl, rfl⟩ := Prod.mk.inj he
  obtain ⟨hpfits, hpsource⟩ := readParams?_fits hp
  obtain ⟨hbfits, hbsource, htext⟩ := readBody?_fits hbody
  have hlead := textBefore_append
    ((hpsource.trans (readName_suffix (readStar cs).2)).trans (readStar_suffix cs))
  have hmiddle := textBefore_append (hbsource.trans hpfits.drop.2)
  have hclose := textBefore_append hbfits.drop.2
  simp only [span, Stretch.after, htext, List.append_assoc]
  rw [hclose, hbfits.drop.1, hmiddle, hpfits.drop.1, hlead]

theorem params_length_le_span (s : Shorthand) : s.params.length ≤ s.span.length := by
  simp only [span, List.length_append]
  omega

theorem body_length_le_span (s : Shorthand) : s.body.text.length ≤ s.span.length := by
  simp only [span, List.length_append]
  omega

end Shorthand

end Florin
