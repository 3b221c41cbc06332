import Florin.Proofs.Lexical.Balance

/-! # Places in a text

Each step over a text stands at a place: behind so many characters. A text that is read up to a place is
read on from the context there, so that this context says whether the next character is in code.
-/
namespace Florin
open Text Lexical

/-- The step stands behind so many characters. -/
def StepAt (steps : List Step) (place : Nat) (s : Step) : Prop :=
  ∃ front back, steps = front ++ s :: back ∧ (spell front).length = place

namespace StepAt
variable {steps : List Step} {place : Nat} {s : Step}

theorem head (s : Step) (steps : List Step) : StepAt (s :: steps) 0 s := ⟨[], steps, rfl, rfl⟩

theorem append_right (h : StepAt steps place s) (more : List Step) :
    StepAt (steps ++ more) place s := by
  obtain ⟨front, back, rfl, hp⟩ := h
  exact ⟨front, back ++ more, by simp, hp⟩

theorem append_left (h : StepAt steps place s) (before : List Step) :
    StepAt (before ++ steps) ((spell before).length + place) s := by
  obtain ⟨front, back, rfl, rfl⟩ := h
  exact ⟨before ++ front, back, by simp, by simp [spell_append]⟩

theorem cons (h : StepAt steps place s) (first : Step) :
    StepAt (first :: steps) (first.text.length + place) s := by
  simpa using h.append_left [first]

end StepAt

theorem StepAt.of_append_left {before steps : List Step} {place : Nat} {s : Step}
    (h : StepAt (before ++ steps) ((spell before).length + place) s) (hne : s.text ≠ []) :
    StepAt steps place s := by
  obtain ⟨front, back, hcut, hlength⟩ := h
  rcases List.append_eq_append_iff.mp hcut with ⟨more, rfl, hsteps⟩ | ⟨more, hbefore, hmore⟩
  · refine ⟨more, back, hsteps, ?_⟩
    rw [spell_append, List.length_append] at hlength
    omega
  · have htext := List.length_pos_iff.mpr hne
    cases more with
    | nil =>
      rw [List.append_nil] at hbefore
      subst hbefore
      exact ⟨[], back, hmore.symm, by rw [spell_nil, List.length_nil]; omega⟩
    | cons s' more =>
      obtain rfl := (List.cons.inj hmore).1
      rw [hbefore, spell_append, spell_cons, List.length_append, List.length_append] at hlength
      omega

namespace Scan

/-- The character at the place stands in code. -/
def CodeAt (cs : List Char) (place : Nat) : Prop :=
  ∃ s, StepAt (trace .start cs) place s ∧ s.before.isCode = true

/-- The text is read up to the end of its front, and the rest from the context there. -/
structure Reads (cs front : List Char) (k : Context) (rest : List Char) : Prop where
  source : cs = front ++ rest
  steps : trace .start cs = trace .start front ++ trace k rest
  context : Context.start.run front = k

namespace Reads
variable {cs front xs rest : List Char} {k : Context}

theorem refl (cs : List Char) : Reads cs [] .start cs := ⟨rfl, rfl, rfl⟩

theorem settled (h : Reads cs front k rest) : k.Settled :=
  h.context ▸ Context.run_settled Context.start_settled front

theorem append (h : Reads cs front k (xs ++ rest)) (hj : Joins k xs rest) :
    Reads cs (front ++ xs) (k.run xs) rest := by
  have ht : trace .start cs = (trace .start front ++ trace k xs) ++ trace (k.run xs) rest := by
    rw [h.steps, hj, List.append_assoc]
  have hfront := (trace_eq_append ht).1
  rw [spell_append, spell_trace, spell_trace] at hfront
  have hjoins : Joins .start front xs := by rw [Joins, hfront, h.context]
  exact ⟨by rw [h.source, List.append_assoc], by rw [hfront, ht], by rw [hjoins.run, h.context]⟩

theorem stepAt (h : Reads cs front k rest) {n : Nat} {s : Step}
    (hs : StepAt (trace .start cs) (front.length + n) s) : StepAt (trace k rest) n s := by
  obtain ⟨a, b, hcut, -⟩ := id hs
  obtain ⟨c, more, -, htext, -⟩ := exists_of_mem_trace (hcut ▸ List.mem_append_right a List.mem_cons_self)
  rw [h.steps] at hs
  exact StepAt.of_append_left (by rwa [spell_trace]) (by rw [htext]; exact List.cons_ne_nil _ _)

theorem codeAt (h : Reads cs front k rest) (hne : rest ≠ []) :
    CodeAt cs front.length ↔ k.isCode = true := by
  obtain ⟨c, rest, rfl⟩ := List.exists_cons_of_ne_nil hne
  obtain ⟨more, steps, ht⟩ := exists_trace_cons k c rest
  constructor
  · rintro ⟨s, hs, hcode⟩
    obtain ⟨a, b, hcut, hlength⟩ := h.stepAt (n := 0) hs
    rw [ht] at hcut
    cases a with
    | nil =>
      obtain rfl := (List.cons.inj hcut).1
      exact hcode
    | cons s' a =>
      obtain rfl := (List.cons.inj hcut).1
      simp at hlength
  · intro hcode
    exact ⟨_, ⟨_, _, by rw [h.steps, ht], by rw [spell_trace]⟩, hcode⟩

theorem not_codeAt_of_wide {c d : Char} (h : Reads cs front k (c :: d :: rest))
    (hw : (k.step c (some d)).2 = true) : ¬CodeAt cs (front.length + 1) := by
  rintro ⟨s, hs, -⟩
  obtain ⟨a, b, hcut, hlength⟩ := h.stepAt hs
  rw [trace_cons_of_wide hw] at hcut
  cases a with
  | nil => simp at hlength
  | cons s' a =>
    obtain rfl := (List.cons.inj hcut).1
    simp at hlength

theorem codeAt_of_quiet (h : Reads cs front .start (xs ++ rest)) (hq : Quiet xs) {n : Nat}
    (hn : front.length ≤ n) (hlt : n < front.length + xs.length) : CodeAt cs n := by
  obtain ⟨xs, ys, rfl, hlength⟩ : ∃ ys zs, xs = ys ++ zs ∧ ys.length = n - front.length :=
    ⟨_, _, (List.take_append_drop (n - front.length) xs).symm, by rw [List.length_take]; omega⟩
  have hquiet : Quiet xs := fun c hc => hq c (List.mem_append_left _ hc)
  rw [List.append_assoc] at h
  have hnext := h.append (hquiet.joins _)
  rw [hquiet.run] at hnext
  have hne : ys ++ rest ≠ [] := by
    rintro hnil
    rw [(List.append_eq_nil_iff.mp hnil).1, List.append_nil] at hlt
    omega
  have hcode := (hnext.codeAt hne).mpr rfl
  rwa [List.length_append, hlength, Nat.add_sub_cancel' hn] at hcode

end Reads

end Scan

end Florin
