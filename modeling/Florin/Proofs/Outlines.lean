import Florin.Expansion
import Florin.Proofs.Span

/-! # Outlines step by step

How the outline of a text starts, by what stands at the head of the text: a shorthand, a sigil that starts
none, or a step of text. What holds of every outline is proved along these.
-/
namespace Florin
open Text Lexical

namespace Outline

variable {k : Context} {joined : Bool} {w : Keyword}

theorem read_of_some {cs : List Char} {o : Opening} (hcode : k.isCode = true)
    (h : Opening.read? joined cs = some o) : read k joined cs =
      shorthand o.gap o.shorthand (read .start false o.shorthand.params)
        (read .start false o.shorthand.body.text) (read k o.joins o.rest) := by
  have hopen : (if k.isCode then Opening.read? joined cs else none) = some o := by rw [if_pos hcode, h]
  rw [read]
  split
  · rename_i o' ho
    obtain rfl := Option.some.inj (hopen.symm.trans ho)
    rfl
  · rename_i hnone
    rw [hnone] at hopen
    simp at hopen

theorem read_of_opening {joined : Bool} {cs : List Char} {o : Opening}
    (h : Opening.read? joined cs = some o) : read .start joined cs =
      shorthand o.gap o.shorthand (read .start false o.shorthand.params)
        (read .start false o.shorthand.body.text) (read .start o.joins o.rest) := read_of_some rfl h

theorem read_of_none {cs : List Char} :
    (if k.isCode then Opening.read? joined cs else none) = none → read k joined cs =
      match cs with
      | [] => done
      | [c] => if k.isCode && c = sigil then leftover done else text [c] done
      | c :: d :: rest =>
        if k.isCode && c = sigil then leftover (read k true (d :: rest))
        else if (k.step c (some d)).2 then
          text [c, d] (read (k.step c (some d)).1 (Identifier.isContinue d) rest)
        else text [c] (read (k.step c (some d)).1 (Identifier.isContinue c) (d :: rest)) := by
  intro h
  rw [read]
  split
  · simp_all
  · cases cs with
    | nil => rfl
    | cons c cs => cases cs <;> rfl

theorem read_nil : read k joined [] = done :=
  read_of_none (by simp [Opening.read?, Opening.plain?, Opening.async?])

theorem read_leftover {cs : List Char} (hcode : k.isCode = true)
    (hopen : (if k.isCode then Opening.read? joined (sigil :: cs) else none) = none) :
    read k joined (sigil :: cs) = leftover (read k true cs) := by
  rw [read_of_none hopen]
  cases cs with
  | nil => simp [hcode, read_nil]
  | cons d cs => simp [hcode]

theorem read_sigil {cs : List Char}
    (hopen : (if Context.start.isCode then Opening.read? joined (sigil :: cs) else none) = none) :
    read .start joined (sigil :: cs) = leftover (read .start true cs) := read_leftover rfl hopen

theorem read_narrow {c : Char} {cs : List Char}
    (hopen : (if k.isCode then Opening.read? joined (c :: cs) else none) = none)
    (hs : ¬(k.isCode && c = sigil) = true) (hn : ∀ d ∈ cs.head?, (k.step c (some d)).2 = false) :
    read k joined (c :: cs) = text [c] (read (k.step c cs.head?).1 (Identifier.isContinue c) cs) := by
  rw [read_of_none hopen]
  cases cs with
  | nil => simp only [if_neg hs, read_nil]
  | cons d cs =>
    have hd := hn d rfl
    simp only [if_neg hs, hd]
    rfl

theorem read_wide {c d : Char} {cs : List Char}
    (hopen : (if k.isCode then Opening.read? joined (c :: d :: cs) else none) = none)
    (hs : ¬(k.isCode && c = sigil) = true) (hw : (k.step c (some d)).2 = true) :
    read k joined (c :: d :: cs) =
      text [c, d] (read (k.step c (some d)).1 (Identifier.isContinue d) cs) := by
  rw [read_of_none hopen]
  simp only [if_neg hs, hw]
  rfl

theorem render_read_narrow {c : Char} {cs : List Char}
    (hopen : (if k.isCode then Opening.read? joined (c :: cs) else none) = none)
    (hs : ¬(k.isCode && c = sigil) = true) (hn : ∀ d ∈ cs.head?, (k.step c (some d)).2 = false) :
    (read k joined (c :: cs)).render w =
      c :: (read (k.step c cs.head?).1 (Identifier.isContinue c) cs).render w :=
  congrArg (render w) (read_narrow hopen hs hn)

theorem read_step {c : Char} {cs : List Char}
    (hopen : (if k.isCode then Opening.read? joined (c :: cs) else none) = none)
    (hs : ¬(k.isCode && c = sigil) = true) : read k joined (c :: cs) =
      text (firstStep k c cs).text (read (firstStep k c cs).after
        ((firstStep k c cs).text.getLast?.any Identifier.isContinue) (behindStep k c cs)) := by
  cases cs with
  | nil =>
    rw [read_narrow hopen hs (by simp), firstStep_nil, behindStep]
    simp [read_nil]
  | cons d cs =>
    cases hw : (k.step c (some d)).2 with
    | true =>
      rw [read_wide hopen hs hw, firstStep_of_wide k c cs hw, behindStep]
      simp [hw]
    | false =>
      have hnarrow : (k.step c (d :: cs).head?).2 = false := hw
      rw [read_narrow hopen hs (by simpa using hw), firstStep_of_narrow k c (d :: cs) hnarrow, behindStep]
      simp [hw]

theorem render_read_step {c : Char} {cs : List Char}
    (hopen : (if k.isCode then Opening.read? joined (c :: cs) else none) = none)
    (hs : ¬(k.isCode && c = sigil) = true) : (read k joined (c :: cs)).render w =
      (firstStep k c cs).text ++ (read (firstStep k c cs).after
        ((firstStep k c cs).text.getLast?.any Identifier.isContinue) (behindStep k c cs)).render w :=
  congrArg (render w) (read_step hopen hs)

/-- Where the outline does not start with a shorthand, none opens. -/
theorem opens_none {cs : List Char} {o : Outline} (hread : read k joined cs = o)
    (hne : ∀ gap s params body rest, o ≠ shorthand gap s params body rest) :
    (if k.isCode then Opening.read? joined cs else none) = none := by
  rw [Option.eq_none_iff_forall_ne_some]
  intro p hp
  obtain ⟨hcode, hp⟩ := Option.ite_none_right_eq_some.mp hp
  exact hne _ _ _ _ _ (hread.symm.trans (read_of_some hcode hp))

/-- Induction along the outline of a text. -/
@[elab_as_elim]
theorem read_induction {motive : Context → Bool → List Char → Prop} (nil : ∀ k joined, motive k joined [])
    (opening : ∀ k joined cs o, k.isCode = true → Opening.read? joined cs = some o →
      motive .start false o.shorthand.params → motive .start false o.shorthand.body.text →
        motive k o.joins o.rest → motive k joined cs)
    (leftover : ∀ k joined cs, k.isCode = true →
      read k joined (sigil :: cs) = .leftover (read k true cs) →
        motive k true cs → motive k joined (sigil :: cs))
    (step : ∀ k joined c cs, ¬(k.isCode && c = sigil) = true →
      read k joined (c :: cs) = text (firstStep k c cs).text (read (firstStep k c cs).after
        ((firstStep k c cs).text.getLast?.any Identifier.isContinue) (behindStep k c cs)) →
      motive (firstStep k c cs).after ((firstStep k c cs).text.getLast?.any Identifier.isContinue)
        (behindStep k c cs) → motive k joined (c :: cs))
    (k : Context) (joined : Bool) (cs : List Char) : motive k joined cs := by
  induction h : cs.length using Nat.strongRecOn generalizing k joined cs with
  | _ n ih =>
    subst h
    cases ho : if k.isCode then Opening.read? joined cs else none with
    | some o =>
      obtain ⟨hcode, ho⟩ := Option.ite_none_right_eq_some.mp ho
      have hlt := Opening.read?_length_lt ho
      have hparams := o.shorthand.params_length_le_span
      have hbody := o.shorthand.body_length_le_span
      exact opening k joined cs o hcode ho (ih _ (by omega) _ _ _ rfl) (ih _ (by omega) _ _ _ rfl)
        (ih _ (by omega) _ _ _ rfl)
    | none =>
      cases cs with
      | nil => exact nil k joined
      | cons c cs =>
        by_cases hs : (k.isCode && c = sigil) = true
        · simp only [Bool.and_eq_true, decide_eq_true_eq] at hs
          obtain ⟨hcode, rfl⟩ := hs
          exact leftover k joined cs hcode (read_leftover hcode ho) (ih _ (by simp) _ _ _ rfl)
        · have hle := behindStep_length_le k c cs
          exact step k joined c cs hs (read_step ho hs)
            (ih _ (by simp only [List.length_cons]; omega) _ _ _ rfl)

end Outline

end Florin
