import Florin.Cursor
import Florin.Proofs.Lexical.Extent

/-! # Scanners by index

A loop over a slice from an index on does what its reader does with the text from there on, and no round
of it is at fault. An index is written as the length of the text before it.
-/
namespace Florin.Cursor
open Text Lexical

@[simp] theorem ok_bind {α β : Type} (a : α) (f : α → Checked β) : (Except.ok a >>= f) = f a := rfl

@[simp] theorem pure_eq {α : Type} (a : α) : (pure a : Checked α) = .ok a := rfl

theorem moveOn_eq {cs : List Char} {i j : Nat} (h : i < j ∧ j ≤ cs.length) :
    moveOn cs i j = .ok ⟨j, h⟩ := dif_pos h

theorem nested_eq {inner outer : List Char} (h : inner.length < outer.length) :
    nested inner outer = .ok ⟨inner, h⟩ := dif_pos h

theorem subtract_eq {count less : Nat} (h : less ≤ count) : subtract count less = .ok (count - less) :=
  if_pos h

section Position
variable (front : List Char)

theorem charAt_eq (c : Char) (cs : List Char) : charAt (front ++ c :: cs) front.length = .ok c := by
  simp [charAt]

theorem slice_eq (mid back : List Char) :
    slice (front ++ (mid ++ back)) front.length (front.length + mid.length) = .ok mid := by
  have htake : (front ++ (mid ++ back)).take (front.length + mid.length) = front ++ mid := by
    rw [← List.append_assoc, ← List.length_append, List.take_left]
  rw [slice, if_pos (by simp), htake, List.drop_left]
  rfl

theorem skipWhile_eq (p : Char → Bool) (cs : List Char) :
    skipWhile p (front ++ cs) front.length = .ok (front.length + (cs.takeWhile p).length) := by
  induction cs generalizing front with
  | nil =>
    rw [skipWhile]
    simp
  | cons c cs ih =>
    rw [skipWhile, if_pos (by simp), charAt_eq, ok_bind]
    split
    · rename_i hp
      have hnext := ih (front ++ [c])
      rw [List.append_assoc, List.singleton_append, List.length_append, List.length_singleton] at hnext
      rw [moveOn_eq (by simp), ok_bind, List.takeWhile_cons_of_pos hp, List.length_cons]
      exact hnext.trans (congrArg Except.ok (by omega))
    · rename_i hp
      rw [List.takeWhile_cons_of_neg hp]
      rfl

theorem advance_eq (k : Context) (c : Char) (cs : List Char) :
    advance (front ++ c :: cs) k front.length =
      .ok ((firstStep k c cs).after, (firstStep k c cs).text.length) := by
  have hnext : (front ++ c :: cs)[front.length + 1]? = cs.head? := by
    rw [List.getElem?_append_right (Nat.le_add_right _ _), Nat.add_sub_cancel_left, List.getElem?_cons_succ,
      List.head?_eq_getElem?]
  rw [advance, charAt_eq, ok_bind, subtract_eq (by simp), ok_bind, hnext]
  have hleft : (front ++ c :: cs).length - front.length = cs.length + 1 := by simp
  rw [hleft, firstStep]
  cases hw : (k.step c cs.head?).2
  · simp
  · simp
    omega

/-! ## Following the steps -/

/-- The text with its first step put to what is before it. -/
theorem append_firstStep (k : Context) (c : Char) (cs : List Char) :
    front ++ c :: cs = (front ++ (firstStep k c cs).text) ++ behindStep k c cs := by
  rw [List.append_assoc, firstStep_append]

theorem firstStep_bound (k : Context) (c : Char) (cs : List Char) :
    front.length < front.length + (firstStep k c cs).text.length ∧
      front.length + (firstStep k c cs).text.length ≤ (front ++ c :: cs).length := by
  have hhead := firstStep_head k c cs
  have happ := congrArg List.length (firstStep_append k c cs)
  rw [List.length_append] at happ
  rw [List.length_append]
  cases htext : (firstStep k c cs).text with
  | nil => simp [htext] at hhead
  | cons d text =>
    rw [htext] at happ
    simp only [List.length_cons] at happ ⊢
    omega

end Position

theorem depthAfter_closer {b : Bracket} {s : Step} (h : s.isCodeChar b.closer = true) (depth : Nat) :
    b.depthAfter depth s = depth - 1 := by
  have hopen : s.isCodeChar b.opener = false := by
    simp only [Step.isCodeChar, Bool.and_eq_true, decide_eq_true_eq] at h
    rw [Step.isCodeChar, h.2]
    cases b <;> simp [Bracket.opener, Bracket.closer]
  simp [Bracket.depthAfter, hopen, h]

/-- The depth of a loop for a closer counts the opener too. -/
theorem depthBehind_eq (b : Bracket) (k : Context) (c : Char) (cs : List Char) (depth : Nat) :
    depthBehind b k c (depth + 1) = .ok (if (firstStep k c cs).isCodeChar b.closer then depth
      else b.depthAfter depth (firstStep k c cs) + 1) := by
  rw [depthBehind, Bracket.depthAfter, isCodeChar_firstStep, isCodeChar_firstStep]
  by_cases hopen : (k.isCode && decide (c = b.opener)) = true
  · have hclose : (k.isCode && decide (c = b.closer)) = false := by
      simp only [Bool.and_eq_true, decide_eq_true_eq] at hopen
      rw [hopen.2]
      cases b <;> simp [Bracket.opener, Bracket.closer]
    simp [hopen, hclose]
  · by_cases hclose : (k.isCode && decide (c = b.closer)) = true
    · simp [hopen, hclose, subtract_eq]
    · simp [hopen, hclose]

/-- One round of a loop for a closer that does not find it. -/
theorem enclosed?_round {b : Bracket} {start depth depth' : Nat} {front cs : List Char} {k : Context} {c : Char}
    (hdepth : depthBehind b k c depth = .ok depth')
    (h : (firstStep k c cs).isCodeChar b.closer = true → depth' ≠ 0) :
    enclosed? b (front ++ c :: cs) start k depth front.length =
      enclosed? b (front ++ c :: cs) start (firstStep k c cs).after depth'
        (front.length + (firstStep k c cs).text.length) := by
  have hstop : ¬(k.isCode && decide (c = b.closer) && decide (depth' = 0)) = true := by
    rw [← isCodeChar_firstStep k c cs]
    simpa using h
  rw [enclosed?, if_pos (by simp), charAt_eq, ok_bind, hdepth, ok_bind, if_neg hstop, advance_eq]
  simp only [ok_bind, moveOn_eq (firstStep_bound front k c cs)]

/-- What a loop for a closer finds where these are the steps before it and those from it on. -/
def found (start : Nat) (front : List Char) (p : List Step × List Step) : Option (List Char × Nat) :=
  if p.2.isEmpty then none
  else some ((front ++ spell p.1).drop (start + 1), front.length + (spell p.1).length)

/-- A loop for the closer of a bracket stops where the steps over the text stop. -/
theorem enclosed?_loop (b : Bracket) {start : Nat} (k : Context) (cs front : List Char) (depth : Nat)
    (hstart : start + 1 ≤ front.length) : enclosed? b (front ++ cs) start k (depth + 1) front.length =
      .ok (found start front (splitAtStop b.inside? depth (trace k cs))) := by
  induction k, cs using step_induction generalizing front depth with
  | nil k =>
    rw [enclosed?]
    simp [trace, splitAtStop, found]
  | cons k c cs ih =>
    rw [trace_cons]
    by_cases hstop : (firstStep k c cs).isCodeChar b.closer = true ∧ depth = 0
    · obtain ⟨hclose, rfl⟩ := hstop
      have hinside : b.inside? 0 (firstStep k c cs) = none := by simp [Bracket.inside?, hclose]
      have hslice : slice (front ++ c :: cs) (start + 1) front.length = .ok (front.drop (start + 1)) := by
        simp [slice, hstart]
      rw [enclosed?, if_pos (by simp), charAt_eq, ok_bind, depthBehind_eq b k c cs, ok_bind,
        ← isCodeChar_firstStep k c cs]
      simp [splitAtStop, hinside, hclose, hslice, found]
    · have hinside : b.inside? depth (firstStep k c cs) = some (b.depthAfter depth (firstStep k c cs)) := by
        rw [Bracket.inside?, if_neg (by simpa using hstop)]
      have hdepth : depthBehind b k c (depth + 1) = .ok (b.depthAfter depth (firstStep k c cs) + 1) := by
        rw [depthBehind_eq b k c cs]
        split
        · rename_i hclose
          have hne : depth ≠ 0 := fun h => hstop ⟨hclose, h⟩
          rw [depthAfter_closer hclose]
          exact congrArg Except.ok (by omega)
        · rfl
      have hnext := ih (front ++ (firstStep k c cs).text) (b.depthAfter depth (firstStep k c cs))
        (by rw [List.length_append]; omega)
      rw [← append_firstStep, List.length_append] at hnext
      rw [enclosed?_round hdepth (fun _ => Nat.succ_ne_zero _), hnext]
      simp [splitAtStop, hinside, found, Nat.add_assoc]

theorem enclosed?_eq (b : Bracket) (front cs : List Char) :
    enclosed? b (front ++ b.opener :: cs) front.length .start 0 front.length =
      .ok ((b.enclosed? cs).map fun r => (r.1, front.length + 1 + r.1.length)) := by
  have hfirst : firstStep .start b.opener cs = ⟨.start, [b.opener], .start⟩ := by
    simp [firstStep, Context.step_start_of_isQuiet b.isQuiet_opener]
  have hdepth : depthBehind b .start b.opener 0 = .ok 1 := by
    simp [depthBehind, Context.isCode, Context.start]
  have hloop := enclosed?_loop b .start cs (front ++ [b.opener]) 0 (by simp : front.length + 1 ≤ _)
  rw [List.append_assoc, List.singleton_append, List.length_append, List.length_singleton] at hloop
  rw [enclosed?_round hdepth (fun _ => Nat.one_ne_zero), hfirst, List.length_singleton, hloop,
    Bracket.enclosed?, stepsWhile_eq]
  obtain ⟨-, last, -, hstop⟩ := splitAtStop_spec b.inside? 0 (trace .start cs)
  generalize splitAtStop b.inside? 0 (trace .start cs) = parts at hstop
  obtain ⟨inner, back⟩ := parts
  cases back with
  | nil => rfl
  | cons s back =>
    have hcode := (Bracket.isCodeChar_of_inside? (hstop s rfl)).1
    cases htext : s.text with
    | nil => simp [Step.isCodeChar, htext] at hcode
    | cons d text => simp [found, htext]

/-! ## Expressions -/

theorem nestingBehind?_eq (k : Context) (c : Char) (cs : List Char) (n : Nesting) :
    nestingBehind? k c n = .ok (n.after? (firstStep k c cs)) := by
  rw [nestingBehind?, Nesting.after?, firstStep_head]
  change _ = Except.ok (if k.isCode = true then _ else _)
  split
  · cases hopen : Bracket.ofOpener? c with
    | some b => simp [hopen]
    | none =>
      cases hclose : Bracket.ofCloser? c with
      | some b =>
        by_cases hzero : n.count b = 0
        · simp [hopen, hclose, hzero]
        · simp [hopen, hclose, hzero, subtract_eq (Nat.one_le_iff_ne_zero.mpr hzero)]
      | none => simp [hopen, hclose]
  · rfl

/-- The end that a loop for the end of an expression comes to over these steps. -/
def endBehind (last i : Nat) : List Step → Nat
  | [] => last
  | s :: steps => endBehind (if s.isSilent then last else i + s.text.length) (i + s.text.length) steps

theorem dropWhileEnd_cons {α : Type} (p : α → Bool) (x : α) (xs : List α) : dropWhileEnd p (x :: xs) =
    if dropWhileEnd p xs = [] then (if p x then [] else [x]) else x :: dropWhileEnd p xs := by
  simp only [dropWhileEnd, List.reverse_cons, List.dropWhile_append, List.isEmpty_iff,
    List.reverse_eq_nil_iff]
  split
  · cases h : p x <;> simp [h]
  · simp

theorem endBehind_eq (last i : Nat) (steps : List Step) : endBehind last i steps =
    if dropWhileEnd Step.isSilent steps = [] then last
    else i + (spell (dropWhileEnd Step.isSilent steps)).length := by
  induction steps generalizing last i with
  | nil => rfl
  | cons s steps ih =>
    rw [endBehind, ih, dropWhileEnd_cons]
    by_cases hrest : dropWhileEnd Step.isSilent steps = []
    · cases hs : s.isSilent <;> simp [hrest]
    · simp [hrest, Nat.add_assoc]

theorem expressionEnd_loop (k : Context) (cs front : List Char) (n : Nesting) (last : Nat) :
    expressionEnd (front ++ cs) k n last front.length =
      .ok (endBehind last front.length (splitAtStop Nesting.after? n (trace k cs)).1) := by
  induction k, cs using step_induction generalizing front n last with
  | nil k =>
    rw [expressionEnd]
    simp [trace, splitAtStop, endBehind]
  | cons k c cs ih =>
    rw [expressionEnd, if_pos (by simp), charAt_eq, ok_bind, nestingBehind?_eq k c cs, ok_bind, trace_cons,
      splitAtStop]
    cases n.after? (firstStep k c cs) with
    | none => rfl
    | some n =>
      have hnext := ih (front ++ (firstStep k c cs).text) n
        (if (firstStep k c cs).isSilent then last else front.length + (firstStep k c cs).text.length)
      have hslice := slice_eq front (firstStep k c cs).text (behindStep k c cs)
      rw [firstStep_append] at hslice
      rw [← append_firstStep, List.length_append] at hnext
      simp only [advance_eq, ok_bind, hslice, moveOn_eq (firstStep_bound front k c cs)]
      exact hnext

theorem expressionEnd_eq (front cs : List Char) :
    expressionEnd (front ++ cs) .start .zero front.length front.length =
      .ok (front.length + (expression cs).1.length) := by
  rw [expressionEnd_loop, endBehind_eq, expression, expressionSteps, stepsWhile_eq]
  split
  · rename_i hnil
    simp [hnil]
  · rfl

end Florin.Cursor
