import Florin.Proofs.Scanning

/-! # What a scan leaves alone

A scan cuts its text into parts, one behind the other: text that stays as it is, the word `async` and
the blanks behind it where a shorthand takes them, and the shorthands. The output is made up of these
parts alone, each on its own. The scans of parameters and bodies do the same with their texts.
-/
namespace Florin
open Text Lexical

/-- A part of a text that is scanned. The numbers say where in a text that stays the sigils are that
start no shorthand. -/
inductive Part where
  | verbatim (cs : List Char) (leftovers : List Nat)
  | dropped (gap : List Char)
  | span (isAsync : Bool) (s : Shorthand)
  deriving DecidableEq, Repr

namespace Scan

/-- What is put out for a shorthand when nothing is put out before it but the word `async`. -/
def alone (w : Keyword) (isAsync : Bool) (s : Shorthand) : List Char :=
  (State.emit { State.initial with pending := if isAsync then some 0 else none } w 0 s
    (run w 0 .initial s.params) (run w 0 .initial s.body.text)).done.output

end Scan

namespace Part

def source : Part → List Char
  | .verbatim cs _ => cs
  | .dropped gap => asyncWord ++ gap
  | .span _ s => sigil :: s.span

def output (w : Keyword) : Part → List Char
  | .verbatim cs _ => cs
  | .dropped _ => []
  | .span isAsync s => Scan.alone w isAsync s

def attempts (w : Keyword) (place : Nat) : Part → List Attempt
  | .verbatim _ leftovers => leftovers.map fun n => ⟨place + n, .leftover⟩
  | .dropped _ => []
  | .span isAsync s =>
    ⟨place, .shorthand isAsync s⟩ ::
      ((Scan.run w (place + 1 + s.lead.length) .initial s.params).attempts ++
        (Scan.run w (place + 1 + s.lead.length + s.params.length + s.middle.length) .initial
          s.body.text).attempts)

def sourceOf (parts : List Part) : List Char := parts.flatMap source

def outputOf (w : Keyword) (parts : List Part) : List Char := parts.flatMap (output w)

def attemptsOf (w : Keyword) (place : Nat) : List Part → List Attempt
  | [] => []
  | part :: parts => part.attempts w place ++ attemptsOf w (place + part.source.length) parts

def isVerbatim : Part → Bool
  | .verbatim _ _ => true
  | _ => false

/-- A word `async` is dropped only right before its shorthand, a shorthand reaches as far as it is read
from what follows its sigil, and text that stays is not cut in two. The flag says that a dropped word
stands right before the parts. -/
def InOrder (held : Bool) : List Part → Prop
  | [] => held = false
  | .verbatim cs leftovers :: parts =>
    held = false ∧ (∀ n ∈ leftovers, cs[n]? = some sigil) ∧ (∀ next ∈ parts.head?, next.isVerbatim = false) ∧
      InOrder false parts
  | .dropped gap :: parts => held = false ∧ (∀ c ∈ gap, isBlank c = true) ∧ InOrder true parts
  | .span isAsync s :: parts =>
    isAsync = held ∧ Shorthand.read? (s.span ++ sourceOf parts) = some (s, sourceOf parts) ∧
      InOrder false parts

def stay (cs : List Char) (leftovers : List Nat) : List Part → List Part
  | .verbatim ds more :: parts =>
    .verbatim (cs ++ ds) (leftovers ++ more.map (cs.length + ·)) :: parts
  | parts => .verbatim cs leftovers :: parts

section Stay
variable (cs : List Char) (leftovers : List Nat) (parts : List Part)

theorem sourceOf_stay : sourceOf (stay cs leftovers parts) = cs ++ sourceOf parts := by
  unfold stay
  split
  · simp [sourceOf, source]
  · rfl

theorem outputOf_stay (w : Keyword) : outputOf w (stay cs leftovers parts) = cs ++ outputOf w parts := by
  unfold stay
  split
  · simp [outputOf, output]
  · rfl

theorem attemptsOf_stay (w : Keyword) (place : Nat) : attemptsOf w place (stay cs leftovers parts) =
    (leftovers.map fun n => ⟨place + n, .leftover⟩) ++ attemptsOf w (place + cs.length) parts := by
  unfold stay
  split
  · simp [attemptsOf, attempts, source, Nat.add_assoc]
  · rfl

theorem inOrder_stay (hsigil : ∀ n ∈ leftovers, cs[n]? = some sigil) {parts : List Part}
    (h : InOrder false parts) : InOrder false (stay cs leftovers parts) := by
  unfold stay
  split
  · rename_i ds more parts
    obtain ⟨-, hmore, hnext, hparts⟩ := h
    refine ⟨rfl, fun n hn => ?_, hnext, hparts⟩
    rcases List.mem_append.mp hn with hn | hn
    · obtain ⟨hlt, -⟩ := List.getElem?_eq_some_iff.mp (hsigil n hn)
      rw [List.getElem?_append_left hlt, hsigil n hn]
    · obtain ⟨m, hm, rfl⟩ := List.mem_map.mp hn
      rw [List.getElem?_append_right (Nat.le_add_right _ _), Nat.add_sub_cancel_left, hmore m hm]
  · rename_i hne
    refine ⟨rfl, hsigil, fun next hnext => ?_, h⟩
    cases next with
    | verbatim ds more =>
      obtain ⟨rest, hrest⟩ := List.head?_eq_some_iff.mp hnext
      exact absurd hrest (hne ds more rest)
    | dropped gap => rfl
    | span isAsync s => rfl

end Stay

end Part

namespace Scan

/-- The parts make up the text, and with every keyword the scan of the text puts out what they give and
tries the sigils that they hold. -/
structure Partition (cs : List Char) (parts : List Part) : Prop where
  inOrder : Part.InOrder false parts
  source : Part.sourceOf parts = cs
  run : ∀ w place, run w place .initial cs = ⟨Part.outputOf w parts, Part.attemptsOf w place parts⟩

/-- The texts that are scanned in the course of a scan: the parameters and the bodies of the shorthands
that it recognises, at any depth. -/
inductive Slice (w : Keyword) (source : List Char) : List Char → Prop
  | whole : Slice w source source
  | params {cs : List Char} {place : Nat} {isAsync : Bool} {s : Shorthand} (h : Slice w source cs)
      (hs : ⟨place, .shorthand isAsync s⟩ ∈ (Scan.run w 0 .initial cs).attempts) :
      Slice w source s.params
  | body {cs : List Char} {place : Nat} {isAsync : Bool} {s : Shorthand} (h : Slice w source cs)
      (hs : ⟨place, .shorthand isAsync s⟩ ∈ (Scan.run w 0 .initial cs).attempts) :
      Slice w source s.body.text

/-- A fresh scan follows the outline of its text. -/
theorem run_initial (w : Keyword) (place : Nat) (cs : List Char) :
    run w place .initial cs = (Outline.ofText cs).scan w place :=
  run_eq w Context.start_settled (.free rfl) rfl

theorem alone_eq (w : Keyword) (isAsync : Bool) (s : Shorthand) : alone w isAsync s =
    s.standard w isAsync ((Outline.ofText s.params).render w) ((Outline.ofText s.body.text).render w) := by
  rw [alone, run_initial, run_initial]
  cases isAsync <;> rfl

end Scan

/-! ## The parts of an outline -/

namespace Outline

def parts : Outline → List Part
  | .done => []
  | .text cs rest => Part.stay cs [] rest.parts
  | .leftover rest => Part.stay [sigil] [0] rest.parts
  | .shorthand gap s _ _ rest =>
    (gap.map Part.dropped).toList ++ .span gap.isSome s :: rest.parts

variable (k : Context) (joined : Bool) (cs : List Char)

theorem sourceOf_parts : Part.sourceOf (read k joined cs).parts = cs := by
  induction k, joined, cs using read_induction with
  | nil => rw [read_nil]; rfl
  | opening k joined cs o hcode ho ihParams ihBody ihRest =>
    rw [read_of_some hcode ho, Opening.read?_append ho]
    cases hgap : o.gap <;> simp_all [parts, Part.sourceOf, Part.source, asyncPart]
  | leftover k joined cs hcode hread ih => rw [hread, parts, Part.sourceOf_stay, ih]; rfl
  | step k joined c cs hs hread ih => rw [hread, parts, Part.sourceOf_stay, ih, firstStep_append]

theorem inOrder_parts : Part.InOrder false (read k joined cs).parts := by
  induction k, joined, cs using read_induction with
  | nil => rw [read_nil]; rfl
  | opening k joined cs o hcode ho ihParams ihBody ihRest =>
    have hblank := (Opening.read?_spans ho).2
    have hread : Shorthand.read? (o.shorthand.span ++ Part.sourceOf (read k o.joins o.rest).parts) =
        some (o.shorthand, Part.sourceOf (read k o.joins o.rest).parts) := by
      rw [sourceOf_parts]
      exact Opening.read?_shorthand ho
    rw [read_of_some hcode ho]
    cases hgap : o.gap with
    | none => exact ⟨rfl, hread, ihRest⟩
    | some gap => exact ⟨rfl, hblank gap hgap, rfl, hread, ihRest⟩
  | leftover k joined cs hcode hread ih =>
    rw [hread]
    exact Part.inOrder_stay _ _ (by simp) ih
  | step k joined c cs hs hread ih =>
    rw [hread]
    exact Part.inOrder_stay _ _ (by simp) ih

theorem outputOf_parts (w : Keyword) :
    Part.outputOf w (read k joined cs).parts = (read k joined cs).render w := by
  induction k, joined, cs using read_induction with
  | nil => rw [read_nil]; rfl
  | opening k joined cs o hcode ho ihParams ihBody ihRest =>
    have hrest : (read k o.joins o.rest).parts.flatMap (Part.output w) = _ := ihRest
    have halone := Scan.alone_eq w o.gap.isSome o.shorthand
    rw [read_of_some hcode ho, render, ← hrest]
    unfold ofText at halone
    cases hgap : o.gap <;> simp_all [parts, Part.outputOf, Part.output]
  | leftover k joined cs hcode hread ih => rw [hread, parts, Part.outputOf_stay, ih]; rfl
  | step k joined c cs hs hread ih => rw [hread, parts, Part.outputOf_stay, ih]; rfl

theorem attemptsOf_parts (w : Keyword) (place : Nat) :
    Part.attemptsOf w place (read k joined cs).parts = (read k joined cs).attempts place := by
  induction k, joined, cs using read_induction generalizing place with
  | nil => rw [read_nil]; rfl
  | opening k joined cs o hcode ho ihParams ihBody ihRest =>
    have hparams := fun place => congrArg Scan.attempts (Scan.run_initial w place o.shorthand.params)
    have hbody := fun place => congrArg Scan.attempts (Scan.run_initial w place o.shorthand.body.text)
    simp only [scan, ofText] at hparams hbody
    rw [read_of_some hcode ho]
    cases hgap : o.gap <;>
      simp [parts, Part.attemptsOf, Part.attempts, Part.source, attempts, asyncPart, ihRest, hparams,
        hbody, Nat.add_assoc, Nat.add_comm 1]
  | leftover k joined cs hcode hread ih => rw [hread, parts, Part.attemptsOf_stay, ih]; rfl
  | step k joined c cs hs hread ih => rw [hread, parts, Part.attemptsOf_stay, ih]; rfl

end Outline

theorem Scan.partition (cs : List Char) : Partition cs (Outline.ofText cs).parts where
  inOrder := Outline.inOrder_parts _ _ _
  source := Outline.sourceOf_parts _ _ _
  run w place := by
    rw [run_initial, Outline.scan, Outline.ofText, Outline.outputOf_parts, Outline.attemptsOf_parts]

example : (Outline.ofText "a ƒ( async  ƒ f{b} c".toList).parts = [.verbatim "a ƒ( ".toList [2],
    .dropped "  ".toList, .span true ⟨false, some ['f'], " f".toList, [], ['{'], .block ['b'], ['}']⟩,
    .verbatim " c".toList []] := by
  decide +kernel

/-- Nothing but shorthands changes: the expansion of a text is made up of its parts in order, where all
text but the shorthands and their words `async` stays, and so is every scan in the course of it. -/
theorem Scan.exists_partition (source : String) :
    (∃ parts, Partition source.toList parts ∧
      ∀ w, expandText w source = String.ofList (Part.outputOf w parts)) ∧
    ∀ w cs, Slice w source.toList cs → ∃ parts, Partition cs parts := by
  refine ⟨⟨(Outline.ofText source.toList).parts, partition _, fun w => ?_⟩,
    fun w cs _ => ⟨(Outline.ofText cs).parts, partition cs⟩⟩
  rw [Outline.ofText, Outline.outputOf_parts, expandText, expand_eq_render]
  rfl

/-- The body of a shorthand that is scanned in a text with a sigil that starts none. -/
theorem Scan.exists_partition_of_nested :
    Slice .const "ƒ( async ƒ f [async ƒ(b) b]".toList "[async ƒ(b) b]".toList ∧
      ∃ parts, Partition "[async ƒ(b) b]".toList parts := by
  have hslice : Slice .const "ƒ( async ƒ f [async ƒ(b) b]".toList "[async ƒ(b) b]".toList :=
    @Slice.body .const _ _ 9 true
      ⟨false, some ['f'], " f ".toList, [], [], .expression "[async ƒ(b) b]".toList, []⟩ .whole
      (by decide +kernel)
  exact ⟨hslice, (exists_partition "ƒ( async ƒ f [async ƒ(b) b]").2 .const _ hslice⟩

end Florin
