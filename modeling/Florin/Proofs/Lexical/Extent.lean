import Florin.Lexical.Expression
import Florin.Proofs.Lexical.Trace
import Mathlib.Data.List.DropRight

/-! # Enclosed texts and expressions in a trace

The text that a bracket encloses is closed: it ends in code and leaves no bracket of that kind
open, and this describes it exactly. An expression ends in code as well, or else nothing but
blanks follows it.
-/
namespace Florin.Lexical
open Text

/-! ## Stopping within a trace -/

/-- Cuts a list before the first member that has no next state. -/
def splitAtStop (next : σ → α → Option σ) (state : σ) : List α → List α × List α
  | [] => ([], [])
  | x :: xs =>
    match next state x with
    | none => ([], x :: xs)
    | some state => (x :: (splitAtStop next state xs).1, (splitAtStop next state xs).2)

theorem splitAtStop_append {next : σ → α → Option σ} {state state' : σ} {xs : List α}
    (h : xs.foldlM next state = some state') (ys : List α) :
    splitAtStop next state (xs ++ ys) =
      (xs ++ (splitAtStop next state' ys).1, (splitAtStop next state' ys).2) := by
  induction xs generalizing state with
  | nil =>
    obtain rfl := Option.some.inj h
    rfl
  | cons x xs ih =>
    obtain ⟨mid, hx, hxs⟩ := Option.bind_eq_some_iff.mp h
    simp only [List.cons_append, splitAtStop, hx, ih hxs]

theorem splitAtStop_spec (next : σ → α → Option σ) (state : σ) (xs : List α) :
    (splitAtStop next state xs).1 ++ (splitAtStop next state xs).2 = xs ∧
      ∃ last, (splitAtStop next state xs).1.foldlM next state = some last ∧
        ∀ y ∈ (splitAtStop next state xs).2.head?, next last y = none := by
  induction xs generalizing state with
  | nil => exact ⟨rfl, state, rfl, by simp [splitAtStop]⟩
  | cons x xs ih =>
    rw [splitAtStop]
    cases hx : next state x with
    | none => exact ⟨rfl, state, rfl, by simpa using hx⟩
    | some mid =>
      obtain ⟨happ, last, hlast, hstop⟩ := ih mid
      refine ⟨congrArg (x :: ·) happ, last, ?_, hstop⟩
      rw [List.foldlM_cons, hx]
      exact hlast

theorem stepsWhile_eq (next : σ → Step → Option σ) (state : σ) (k : Context) (cs : List Char) :
    stepsWhile next state k cs =
      ((splitAtStop next state (trace k cs)).1, spell (splitAtStop next state (trace k cs)).2) := by
  fun_induction stepsWhile next state k cs with
  | case1 => rfl
  | case2 state k c hn => simp [trace, splitAtStop, hn]
  | case3 state k c _ hn => simp [trace, splitAtStop, hn]
  | case4 state k c d rest hw hn => simp [trace_cons_of_wide hw, splitAtStop, hn, spell_trace]
  | case5 state k c d rest hw mid hn ih =>
    rw [trace_cons_of_wide hw, splitAtStop, hn, ih]
    rfl
  | case6 state k c d rest hw hn =>
    rw [trace_cons_of_narrow (by simpa using hw)]
    simp only [List.head?_cons, splitAtStop, hn, spell_cons, spell_trace]
    rfl
  | case7 state k c d rest hw mid hn ih =>
    rw [trace_cons_of_narrow (by simpa using hw)]
    simp only [List.head?_cons, splitAtStop, hn, ih]
    rfl

/-! ## Brackets -/

namespace Bracket

theorem isQuiet_opener (b : Bracket) : isQuiet b.opener = true := by cases b <;> decide

theorem isQuiet_closer (b : Bracket) : isQuiet b.closer = true := by cases b <;> decide

theorem apart_opener (b : Bracket) (xs ys : List Char) : Apart xs (b.opener :: ys) :=
  apart_cons (by cases b <;> decide) xs ys

theorem apart_closer (b : Bracket) (xs ys : List Char) : Apart xs (b.closer :: ys) :=
  apart_cons (by cases b <;> decide) xs ys

/-- A text that ends in code and closes the brackets of one kind that it opens. -/
def Closed (b : Bracket) (cs : List Char) : Prop :=
  Context.start.run cs = .start ∧ (trace .start cs).foldlM b.inside? 0 = some 0

end Bracket

/-- What a bracket encloses, exactly. -/
theorem Bracket.enclosed?_eq_some_iff {b : Bracket} {cs inner rest : List Char} :
    b.enclosed? cs = some (inner, rest) ↔ cs = inner ++ b.closer :: rest ∧ b.Closed inner := by
  have hclose : b.inside? 0 ⟨.start, [b.closer], .start⟩ = none := by cases b <;> rfl
  have hapart := b.apart_closer inner rest
  constructor
  · intro h
    have hcs := enclosed?_append h
    rw [enclosed?, stepsWhile_eq] at h
    obtain ⟨happ, last, hlast, hstop⟩ := splitAtStop_spec b.inside? 0 (trace .start cs)
    generalize splitAtStop b.inside? 0 (trace .start cs) = parts at h happ hlast hstop
    obtain ⟨front, back⟩ := parts
    cases back with
    | nil => simp at h
    | cons s back =>
      obtain ⟨hcode, hzero⟩ := isCodeChar_of_inside? (hstop s rfl)
      simp only [Step.isCodeChar, Bool.and_eq_true, decide_eq_true_eq] at hcode
      obtain ⟨hf, hb⟩ := trace_eq_append happ.symm
      obtain ⟨more, ht⟩ : ∃ more, s.text = b.closer :: more := by
        cases hs : s.text <;> simp_all
      simp only [spell_cons, ht, List.cons_append, Option.some.injEq, Prod.mk.injEq] at h
      obtain rfl := h.1
      have hrun := Context.run_eq_start (before_of_trace_eq hb ▸ hcode.1)
      exact ⟨hcs, hrun, by rw [hf, hlast, hzero]⟩
  · rintro ⟨rfl, hrun, hfold⟩
    have hj : Joins .start inner (b.closer :: rest) := joins_of_isCode (by rw [hrun]; rfl) hapart
    rw [enclosed?, stepsWhile_eq, hj, hrun, splitAtStop_append hfold,
      trace_cons_of_isQuiet b.isQuiet_closer, splitAtStop, hclose]
    simp [spell_trace]

/-! ## Expressions -/

theorem blank_of_isSilent {k : Context} (hc : k.isCode = false) (hk : k.region ≠ .lineComment)
    {cs : List Char} (h : ∀ s ∈ trace k cs, s.isSilent = true) :
    (∀ c ∈ cs, isBlank c = true) ∧ k.run cs = k := by
  induction cs with
  | nil => exact ⟨by simp, rfl⟩
  | cons c cs ih =>
    have hblank : isBlank c = true := by
      obtain ⟨more, steps, ht⟩ := exists_trace_cons k c cs
      have hsilent := h _ (ht ▸ List.mem_cons_self)
      have hafter := Context.step_ne_lineComment hc hk c cs.head?
      simp only [Step.isSilent, hk, hafter, decide_false, Bool.false_or, List.all_cons,
        Bool.and_eq_true] at hsilent
      exact hsilent.1
    have hs := Context.step_of_isIdle (isIdle_of_isBlank hblank) hk cs.head?
    rw [trace_cons_of_narrow (congrArg Prod.snd hs), hs] at h
    obtain ⟨hb, hr⟩ := ih fun s hm => h s (List.mem_cons_of_mem _ hm)
    rw [Context.run_cons_of_narrow (congrArg Prod.snd hs), hs]
    exact ⟨List.forall_mem_cons.mpr ⟨hblank, hb⟩, hr⟩

theorem Nesting.isCode_of_after? {n : Nesting} {s : Step} (h : n.after? s = none) :
    s.before.isCode = true := by
  by_contra hc
  simp [after?, hc] at h

/-- The steps of an expression, the silent ones after it, and those from where the scan stops. -/
theorem expressionSteps_scan (cs : List Char) : ∃ silent back n,
    trace .start cs = expressionSteps cs ++ (silent ++ back) ∧ (∀ s ∈ silent, s.isSilent = true) ∧
      (∀ s ∈ (expressionSteps cs).getLast?, s.isSilent = false) ∧
      (expressionSteps cs ++ silent).foldlM Nesting.after? .zero = some n ∧
      ∀ s ∈ back.head?, n.after? s = none := by
  obtain ⟨happ, last, hlast, hstop⟩ := splitAtStop_spec Nesting.after? .zero (trace .start cs)
  generalize hp : splitAtStop Nesting.after? .zero (trace .start cs) = parts at happ hlast hstop
  obtain ⟨front, back⟩ := parts
  have he : expressionSteps cs = front.rdropWhile Step.isSilent := by
    rw [expressionSteps, stepsWhile_eq, hp]
    rfl
  refine ⟨front.rtakeWhile Step.isSilent, back, last, ?_, ?_, ?_, ?_, hstop⟩
  · rw [he, ← List.append_assoc, List.rdropWhile_append_rtakeWhile]
    exact happ.symm
  · exact fun s hs => List.mem_rtakeWhile_imp hs
  · intro s hs
    rw [he] at hs
    have hne : front.rdropWhile Step.isSilent ≠ [] := by
      rintro h
      simp [h] at hs
    have hlast := List.rdropWhile_last_not Step.isSilent front hne
    rw [List.getLast?_eq_some_getLast hne] at hs
    obtain rfl := Option.some.inj hs
    simpa using hlast
  · rw [he, List.rdropWhile_append_rtakeWhile]
    exact hlast

/-- The scan for the end of an expression stops in code. -/
theorem expressionSteps_spec (cs : List Char) : ∃ silent back,
    trace .start cs = expressionSteps cs ++ (silent ++ back) ∧ (∀ s ∈ silent, s.isSilent = true) ∧
      (∀ s ∈ (expressionSteps cs).getLast?, s.isSilent = false) ∧
      ∀ s ∈ back.head?, s.before.isCode = true := by
  obtain ⟨silent, back, n, ht, hsilent, hlast, -, hstop⟩ := expressionSteps_scan cs
  exact ⟨silent, back, ht, hsilent, hlast, fun s hs => Nesting.isCode_of_after? (hstop s hs)⟩

theorem expression_eq (cs : List Char) {back : List Step}
    (h : trace .start cs = expressionSteps cs ++ back) :
    expression cs = (spell (expressionSteps cs), spell back) := by
  have hcs := (joins_of_trace_eq h).1
  exact Prod.ext rfl (List.append_cancel_left ((expression_append cs).trans hcs))

theorem expression_joins (cs : List Char) : Joins .start (expression cs).1 (expression cs).2 := by
  obtain ⟨silent, back, ht, -⟩ := expressionSteps_spec cs
  rw [expression_eq cs ht]
  exact (joins_of_trace_eq ht).2

theorem trace_expression (cs : List Char) : trace .start (expression cs).1 = expressionSteps cs := by
  obtain ⟨silent, back, ht, -⟩ := expressionSteps_spec cs
  exact (trace_eq_append ht).1

theorem run_expression_ne_lineComment (cs : List Char) :
    (Context.start.run (expression cs).1).region ≠ .lineComment := by
  obtain ⟨silent, back, -, -, hlast, -⟩ := expressionSteps_spec cs
  have ht := trace_expression cs
  rcases List.eq_nil_or_concat' (expressionSteps cs) with hn | ⟨front, s, hs⟩
  · rw [hn, trace_eq_nil_iff] at ht
    simp [ht, Context.start]
  · rw [hs] at ht hlast
    have hsilent := hlast s (by simp)
    rw [run_of_trace_concat ht]
    intro hr
    simp [Step.isSilent, hr] at hsilent

/-- Where an expression ends in an open literal, what is silent behind it is blank and leaves it open. -/
theorem run_silent {cs : List Char} {silent back : List Step}
    (ht : trace .start cs = expressionSteps cs ++ (silent ++ back))
    (hsilent : ∀ s ∈ silent, s.isSilent = true)
    (hopen : (Context.start.run (expression cs).1).isCode = false) :
    (∀ c ∈ spell silent, isBlank c = true) ∧
      Context.start.run ((expression cs).1 ++ spell silent) = Context.start.run (expression cs).1 := by
  have hne := run_expression_ne_lineComment cs
  rw [expression_eq cs ht] at hopen hne ⊢
  obtain ⟨hs, -⟩ := trace_eq_append (trace_eq_append ht).2
  rw [← List.append_assoc] at ht
  have hfront := (trace_eq_append ht).1
  rw [← spell_append, (joins_of_trace_eq hfront).1, (joins_of_trace_eq hfront).2.run]
  exact blank_of_isSilent hopen hne (by rwa [hs])

/-- An expression ends in code, or else only blanks follow and leave the literal open. -/
theorem expression_ends (cs : List Char) :
    Context.start.run (expression cs).1 = .start ∨
      (∀ c ∈ (expression cs).2, isBlank c = true) ∧ (Context.start.run cs).isCode = false := by
  by_cases hcode : (Context.start.run (expression cs).1).isCode = true
  · exact Or.inl (Context.run_eq_start hcode)
  right
  have hopen : (Context.start.run (expression cs).1).isCode = false := by simpa using hcode
  obtain ⟨silent, back, ht, hsilent, -, hback⟩ := expressionSteps_spec cs
  obtain ⟨hblank, hrun⟩ := run_silent ht hsilent hopen
  have he := expression_eq cs ht
  have hcs := expression_append cs
  rw [he] at hcs hrun hopen ⊢
  obtain rfl : back = [] := by
    cases back with
    | nil => rfl
    | cons s back =>
      rw [← List.append_assoc] at ht
      have hbefore := before_of_trace_eq (trace_eq_append ht).2
      rw [spell_append, hrun] at hbefore
      have hc := hback s rfl
      rw [hbefore, hopen] at hc
      exact absurd hc (by simp)
  rw [List.append_nil] at hcs ⊢
  exact ⟨hblank, by rw [← hcs, hrun, hopen]⟩

end Florin.Lexical
