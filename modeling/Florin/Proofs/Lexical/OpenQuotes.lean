import Florin.Proofs.Lexical.Regions
import Mathlib.Data.List.DropRight

/-! # Open quotes

A context keeps a counter for each open template and no place to go back to: where a string or a template
closes, the region around it is told from whether another template is open. The steps so far tell which
strings and templates are open, which step opened each of them and which steps are its own. That is all
there is to a context: its region and its counters follow, and what closes leads back to the context that
it opened in.
-/
namespace Florin.Lexical

/-! ## What a step does to quotes -/

namespace Step

/-- The step reads a quote in code, or in the code of an interpolation. -/
def opensQuote (s : Step) : Bool :=
  (s.before.region = .code || s.before.region = .interpolation) &&
    (s.text = ['\''] || s.text = ['"'] || s.text = [backtick])

/-- The step reads the quote that its string or its template started with. -/
def closesQuote (s : Step) : Bool := s.before.region.quote?.any fun c => s.text = [c]

def opensBrace (s : Step) : Bool := s.before.region = .interpolation && s.text = ['{']

def closesBrace (s : Step) : Bool := s.before.region = .interpolation && s.text = ['}']

variable {s : Step}

theorem readsCode_of_opensQuote (h : s.opensQuote = true) : s.before.region.readsCode = true := by
  simp only [opensQuote, Bool.and_eq_true, Bool.or_eq_true, decide_eq_true_eq] at h
  rcases h.1 with hk | hk <;> rw [hk] <;> rfl

theorem opensQuote_of_readsCode (hk : s.before.region.readsCode = true) {r : Region} {c : Char}
    (hc : r.quote? = some c) (ht : s.text = [c]) : s.opensQuote = true := by
  obtain ⟨⟨region, templates⟩, text, after⟩ := s
  cases region <;> cases hk <;> cases r <;> cases hc <;> cases ht <;> rfl

theorem opensQuote_of_not_readsCode (hk : s.before.region.readsCode = false) : s.opensQuote = false :=
  Bool.eq_false_iff.mpr fun h => absurd (readsCode_of_opensQuote h) (by simp [hk])

theorem closesQuote_iff :
    s.closesQuote = true ↔ ∃ c, s.before.region.quote? = some c ∧ s.text = [c] := by
  cases h : s.before.region.quote? <;> simp [closesQuote, h]

theorem opensQuote_of_closesQuote (h : s.closesQuote = true) : s.opensQuote = false := by
  obtain ⟨⟨region, templates⟩, text, after⟩ := s
  cases region <;> simp_all [closesQuote, opensQuote, Region.quote?]

theorem plain_of_not_mem_marks {c : Char} {more : List Char} (ht : s.text = c :: more)
    (hc : c ∉ s.before.region.marks) : s.opensQuote = false ∧ s.closesQuote = false ∧
      s.opensBrace = false ∧ s.closesBrace = false := by
  obtain ⟨⟨region, templates⟩, text, after⟩ := s
  obtain rfl : text = c :: more := ht
  cases region <;>
    simp_all [opensQuote, closesQuote, opensBrace, closesBrace, Region.marks, Region.quote?]

/-- The context behind a quote that closes. -/
def closing (s : Step) : Context :=
  if s.before.region = .template then s.before.closeTemplate else s.before.leave

theorem after_eq_closing (hc : s.closesQuote = true) {c : Char} {more : List Char}
    {next : Option Char} (ht : s.text = c :: more) (ha : s.after = (s.before.step c next).1) :
    s.after = s.closing := by
  obtain ⟨quote, hquote, htext⟩ := closesQuote_iff.mp hc
  obtain ⟨rfl, -⟩ := List.cons.inj (ht.symm.trans htext)
  obtain ⟨⟨region, templates⟩, text, after⟩ := s
  cases region <;> cases hquote <;> exact ha

end Step

/-! ## The quotes that are open -/

/-- A string or a template that is open: the step that opened it, and the steps since then that stand in it
and in none that opened later. -/
structure OpenQuote where
  opening : Step
  own : List Step
  deriving DecidableEq

namespace OpenQuote

def isTemplate (q : OpenQuote) : Bool := q.opening.text = [backtick]

/-- The own steps of a template from the one on that led into its current interpolation. -/
def interpolation (q : OpenQuote) : List Step := q.own.rtakeWhile fun s => s.after.region = .interpolation

/-- How many more braces the current interpolation of a template has opened than closed. -/
def unclosed (q : OpenQuote) : Int :=
  q.interpolation.countP Step.opensBrace - q.interpolation.countP Step.closesBrace

def push (q : OpenQuote) (s : Step) : OpenQuote := { q with own := q.own ++ [s] }

end OpenQuote

/-- The open quotes behind a step, the innermost first. -/
def openBehind (stack : List OpenQuote) (s : Step) : List OpenQuote :=
  if s.opensQuote then ⟨s, []⟩ :: stack
  else if s.closesQuote then stack.tail
  else stack.modifyHead (·.push s)

def openQuotes (steps : List Step) : List OpenQuote := steps.foldl openBehind []

def openTemplates (steps : List Step) : List OpenQuote := (openQuotes steps).filter OpenQuote.isTemplate

section Behind
variable {s : Step} {stack : List OpenQuote} {q : OpenQuote}

theorem openBehind_opens (h : s.opensQuote = true) : openBehind stack s = ⟨s, []⟩ :: stack := if_pos h

theorem openBehind_closes (h : s.closesQuote = true) : openBehind stack s = stack.tail := by
  simp [openBehind, Step.opensQuote_of_closesQuote h, h]

theorem openBehind_stays (ho : s.opensQuote = false) (hc : s.closesQuote = false) :
    openBehind stack s = stack.modifyHead (·.push s) := by
  simp [openBehind, ho, hc]

theorem openBehind_cases (stack : List OpenQuote) (s : Step) :
    s.opensQuote = true ∧ openBehind stack s = ⟨s, []⟩ :: stack ∨
      s.closesQuote = true ∧ openBehind stack s = stack.tail ∨
        (s.opensQuote = false ∧ s.closesQuote = false) ∧
          openBehind stack s = stack.modifyHead (·.push s) := by
  cases ho : s.opensQuote with
  | true => exact Or.inl ⟨rfl, openBehind_opens ho⟩
  | false =>
    cases hc : s.closesQuote with
    | true => exact Or.inr (Or.inl ⟨rfl, openBehind_closes hc⟩)
    | false => exact Or.inr (Or.inr ⟨⟨rfl, rfl⟩, openBehind_stays ho hc⟩)

theorem mem_openBehind (h : q ∈ openBehind stack s) :
    q = ⟨s, []⟩ ∨ q ∈ stack ∨ ∃ p ∈ stack, q = p.push s := by
  rcases openBehind_cases stack s with ⟨-, hs⟩ | ⟨-, hs⟩ | ⟨-, hs⟩ <;> rw [hs] at h
  · rcases List.mem_cons.mp h with h | h
    · exact Or.inl h
    · exact Or.inr (Or.inl h)
  · exact Or.inr (Or.inl (List.mem_of_mem_tail h))
  · cases stack with
    | nil => simp at h
    | cons p outer =>
      rcases List.mem_cons.mp h with h | h
      · exact Or.inr (Or.inr ⟨p, List.mem_cons_self, h⟩)
      · exact Or.inr (Or.inl (List.mem_cons_of_mem p h))

/-- Another own step changes no opening. -/
theorem exists_of_modifyHead {above outer : List OpenQuote}
    (h : stack.modifyHead (·.push s) = above ++ q :: outer) : ∃ above' q',
      stack = above' ++ q' :: outer ∧ above'.length = above.length ∧ q'.opening = q.opening := by
  cases stack with
  | nil => simp at h
  | cons p rest =>
    rw [List.modifyHead_cons] at h
    cases above with
    | nil =>
      obtain ⟨rfl, rfl⟩ := List.cons.inj h
      exact ⟨[], p, rfl, rfl, rfl⟩
    | cons _ above =>
      obtain ⟨-, rfl⟩ := List.cons.inj h
      exact ⟨p :: above, q, rfl, rfl, rfl⟩

@[simp] theorem openQuotes_concat (steps : List Step) (s : Step) :
    openQuotes (steps ++ [s]) = openBehind (openQuotes steps) s := by
  rw [openQuotes, List.foldl_append]
  rfl

end Behind

namespace OpenQuote
variable {q : OpenQuote} {s : Step}

theorem interpolation_push (h : s.after.region = .interpolation) :
    (q.push s).interpolation = q.interpolation ++ [s] := by
  simp [interpolation, push, h]

theorem interpolation_push_of_ne (h : s.after.region ≠ .interpolation) : (q.push s).interpolation = [] := by
  simp [interpolation, push, h]

theorem unclosed_of_nil (h : q.interpolation = []) : q.unclosed = 0 := by simp [unclosed, h]

theorem unclosed_push (h : s.after.region = .interpolation) : (q.push s).unclosed =
    q.unclosed + ((if s.opensBrace then 1 else 0) - (if s.closesBrace then 1 else 0)) := by
  rw [unclosed, interpolation_push h, List.countP_append, List.countP_append]
  simp only [unclosed, List.countP_singleton]
  split_ifs <;> omega

theorem unclosed_le_length (q : OpenQuote) : q.unclosed ≤ q.own.length := by
  have hcount : q.interpolation.countP Step.opensBrace ≤ q.interpolation.length := List.countP_le_length
  have hlength : q.interpolation.length ≤ q.own.length := (List.rtakeWhile_suffix _ _).length_le
  unfold unclosed
  omega

end OpenQuote

/-! ## What the open quotes say of the context -/

/-- These quotes are open in the context. Each of them opened in a context that the outer ones explain, and
its counter, if it is a template, is that of the braces. -/
inductive Explains : List OpenQuote → Context → Prop
  | outside {k : Context} (ho : k.region.isOuter = true) (ht : k.templates = []) : Explains [] k
  | string {q : OpenQuote} {stack : List OpenQuote} {r : Region} {c : Char}
      (h : Explains stack q.opening.before) (ho : q.opening.opensQuote = true)
      (hr : r.isString = true) (hc : r.quote? = some c) (htext : q.opening.text = [c]) :
      Explains (q :: stack) ⟨r, q.opening.before.templates⟩
  | template {q : OpenQuote} {stack : List OpenQuote} (h : Explains stack q.opening.before)
      (ho : q.opening.opensQuote = true) (htext : q.isTemplate = true) (hnone : q.interpolation = []) :
      Explains (q :: stack) ⟨.template, 0 :: q.opening.before.templates⟩
  | interpolation {q : OpenQuote} {stack : List OpenQuote} {n : Nat} (h : Explains stack q.opening.before)
      (ho : q.opening.opensQuote = true) (htext : q.isTemplate = true) (hn : q.unclosed = n) :
      Explains (q :: stack) ⟨.interpolation, n :: q.opening.before.templates⟩

namespace Explains
variable {stack : List OpenQuote} {k : Context} {q : OpenQuote} {s : Step}

theorem start : Explains [] .start := .outside rfl rfl

theorem coherent (h : Explains stack k) : k.Coherent := by
  cases h with
  | @outside k ho ht =>
    obtain ⟨region, templates⟩ := k
    obtain rfl : templates = [] := ht
    exact Context.coherent_nil (by cases region <;> cases ho <;> rfl)
  | string _ _ hr => exact Context.coherent_of_isString hr _
  | template => exact Context.coherent_cons rfl _ _
  | interpolation => exact Context.coherent_cons rfl _ _

/-- What closes leads back to where it opened: code and interpolations are told apart by the templates. -/
theorem leave_eq (h : Explains stack k) (hk : k.region.readsCode = true) (r : Region) :
    Context.leave ⟨r, k.templates⟩ = k := by
  have hcoherent := h.coherent
  obtain ⟨region, templates⟩ := k
  cases region <;> cases hk
  · obtain rfl : templates = [] := hcoherent.outer rfl
    rfl
  · obtain ⟨n, outer, rfl⟩ := List.exists_cons_of_ne_nil (hcoherent.inner rfl)
    rfl

/-- A string or a template that closes leads back to where it opened. -/
theorem closes (h : Explains (q :: stack) s.before) (hc : s.closesQuote = true) (ha : s.after = s.closing) :
    s.after = q.opening.before ∧ s.text = q.opening.text ∧ Explains stack q.opening.before := by
  obtain ⟨k, text, after⟩ := s
  cases h with
  | @string _ _ r c h ho hr hquote ht =>
    have hne : r ≠ .template := by rintro rfl; cases hr
    have htext : text = [c] := by simpa [Step.closesQuote, hquote] using hc
    have hclosing : after = Context.leave ⟨r, _⟩ := ha.trans (if_neg hne)
    have hafter := hclosing.trans (h.leave_eq (Step.readsCode_of_opensQuote ho) r)
    exact ⟨hafter, htext.trans ht.symm, h⟩
  | template h ho ht =>
    have htext : text = [backtick] := by simpa [Step.closesQuote, Region.quote?] using hc
    have hopening : _ = [backtick] := of_decide_eq_true ht
    have hclosing : after = Context.leave ⟨.template, _⟩ := ha
    have hafter := hclosing.trans (h.leave_eq (Step.readsCode_of_opensQuote ho) .template)
    exact ⟨hafter, htext.trans hopening.symm, h⟩
  | interpolation => simp [Step.closesQuote, Region.quote?] at hc

theorem ne_nil_of_closesQuote (h : Explains stack s.before) (hc : s.closesQuote = true) : stack ≠ [] := by
  rintro rfl
  obtain ⟨c, hquote, -⟩ := Step.closesQuote_iff.mp hc
  obtain ⟨k, text, after⟩ := s
  cases h with
  | @outside _ ho => cases hr : k.region <;> simp_all [Region.isOuter, Region.quote?]

/-! One step, along the changes that it can make. -/

theorem opensString (h : Explains stack s.before) (hk : s.before.region.readsCode = true) {r : Region}
    (hr : r.isString = true) {c : Char} (hc : r.quote? = some c) (ht : s.text = [c])
    (ha : s.after = s.before.enter r) : Explains (openBehind stack s) s.after := by
  have ho := Step.opensQuote_of_readsCode hk hc ht
  rw [openBehind_opens ho, ha]
  exact .string (q := ⟨s, []⟩) h ho hr hc ht

theorem opensTemplate (h : Explains stack s.before) (hk : s.before.region.readsCode = true)
    (ht : s.text = [backtick]) (ha : s.after = s.before.openTemplate) :
    Explains (openBehind stack s) s.after := by
  have hquote : Region.template.quote? = some backtick := rfl
  have ho := Step.opensQuote_of_readsCode hk hquote ht
  rw [openBehind_opens ho, ha]
  exact .template (q := ⟨s, []⟩) h ho (by simp [OpenQuote.isTemplate, ht]) rfl

theorem closed (h : Explains stack s.before) (hc : s.closesQuote = true) (ha : s.after = s.closing) :
    Explains (openBehind stack s) s.after := by
  obtain ⟨q, outer, rfl⟩ := List.exists_cons_of_ne_nil (h.ne_nil_of_closesQuote hc)
  obtain ⟨hafter, -, hk⟩ := h.closes hc ha
  rw [openBehind_closes hc, hafter]
  exact hk

/-- The outer code and its comments lead to each other as long as no quote opens. -/
theorem outer (h : Explains stack s.before) (hk : s.before.region.isOuter = true) (ho : s.opensQuote = false)
    (ha : s.after.region.isOuter = true) (ht : s.after.templates = s.before.templates) :
    Explains (openBehind stack s) s.after := by
  have hc : s.closesQuote = false := by
    cases hr : s.before.region <;> simp_all [Region.isOuter, Step.closesQuote, Region.quote?]
  obtain ⟨k, text, after⟩ := s
  cases h with
  | outside _ hnone =>
    rw [openBehind_stays ho hc]
    exact .outside ha (ht.trans hnone)
  | @string _ _ r _ _ _ hr => cases r <;> cases hr <;> cases hk
  | template => cases hk
  | interpolation => cases hk

/-- A step that changes nothing is one more of the innermost quote. -/
theorem stays (h : Explains stack s.before) (ho : s.opensQuote = false) (hc : s.closesQuote = false)
    (hb : s.opensBrace = false) (hb' : s.closesBrace = false) (ha : s.after = s.before) :
    Explains (openBehind stack s) s.after := by
  obtain ⟨k, text, after⟩ := s
  obtain rfl : after = k := ha
  cases h with
  | outside houter hnone =>
    rw [openBehind_stays ho hc]
    exact .outside houter hnone
  | string h hopen hr hquote ht =>
    rw [openBehind_stays ho hc]
    exact .string (q := .push _ _) h hopen hr hquote ht
  | template h hopen ht =>
    rw [openBehind_stays ho hc]
    exact .template (q := .push _ _) h hopen ht (OpenQuote.interpolation_push_of_ne (by simp))
  | interpolation h hopen ht hn =>
    rw [openBehind_stays ho hc]
    refine .interpolation (q := .push _ _) h hopen ht ?_
    rw [OpenQuote.unclosed_push rfl, hn, hb, hb']
    rfl

/-- A new interpolation has no brace open. -/
theorem enters (h : Explains stack s.before) (hk : s.before.region = .template) (hc : s.closesQuote = false)
    (ha : s.after = s.before.enter .interpolation) : Explains (openBehind stack s) s.after := by
  have ho : s.opensQuote = false := Step.opensQuote_of_not_readsCode (by rw [hk]; rfl)
  have hb : s.opensBrace = false := by simp [Step.opensBrace, hk]
  have hb' : s.closesBrace = false := by simp [Step.closesBrace, hk]
  obtain ⟨⟨region, templates⟩, text, after⟩ := s
  obtain rfl : region = .template := hk
  obtain rfl : after = ⟨.interpolation, templates⟩ := ha
  cases h with
  | outside houter => cases houter
  | string _ _ hr => cases hr
  | @template q _ h hopen ht hnone =>
    rw [openBehind_stays ho hc]
    refine .interpolation (q := q.push _) h hopen ht ?_
    rw [OpenQuote.unclosed_push rfl, OpenQuote.unclosed_of_nil hnone, hb, hb']
    rfl

/-- A brace counts for the innermost template, and ends its interpolation if it closes none. -/
theorem braces (h : Explains stack s.before) (hk : s.before.region = .interpolation)
    (hs : s.text = ['{'] ∧ s.after = s.before.openBrace ∨ s.text = ['}'] ∧ s.after = s.before.closeBrace) :
    Explains (openBehind stack s) s.after := by
  have ho : s.opensQuote = false := by
    rcases hs with ⟨ht, -⟩ | ⟨ht, -⟩ <;> simp [Step.opensQuote, ht, backtick]
  have hc : s.closesQuote = false := by simp [Step.closesQuote, hk, Region.quote?]
  obtain ⟨⟨region, templates⟩, text, after⟩ := s
  obtain rfl : region = .interpolation := hk
  cases h with
  | outside houter => cases houter
  | string _ _ hr => cases hr
  | @interpolation q _ n h hopen ht hn =>
    rw [openBehind_stays ho hc]
    dsimp only at hs
    rcases hs with ⟨rfl, rfl⟩ | ⟨rfl, rfl⟩
    · refine .interpolation (q := q.push _) h hopen ht ?_
      rw [OpenQuote.unclosed_push rfl, hn]
      rfl
    · cases n with
      | zero =>
        refine .template (q := q.push _) h hopen ht (OpenQuote.interpolation_push_of_ne ?_)
        simp [Context.closeBrace, Context.enter]
      | succ n =>
        refine .interpolation (q := q.push _) h hopen ht ?_
        rw [OpenQuote.unclosed_push rfl, hn, if_neg (by simp [Step.opensBrace]),
          if_pos (by simp [Step.closesBrace])]
        omega

theorem step {c : Char} {more : List Char} {next : Option Char} {wide : Bool} {k' : Context}
    (h : Explains stack k) (hs : k.Change c next wide k') (hm : wide = false → more = []) :
    Explains (openBehind stack ⟨k, c :: more, k'⟩) k' := by
  have hstay (hc : c ∉ k.region.marks) : Explains (openBehind stack ⟨k, c :: more, k⟩) k := by
    obtain ⟨ho, hc, hb, hb'⟩ := Step.plain_of_not_mem_marks (s := ⟨k, c :: more, k⟩) rfl hc
    exact h.stays ho hc hb hb' rfl
  cases hs with
  | stay hc => exact hstay hc
  | escape hk hc => exact hstay (hc ▸ k.region.escape_not_mem_marks)
  | openString hk hr hc => exact h.opensString hk hr hc (by rw [hm rfl]) rfl
  | openTemplate hk hc => exact h.opensTemplate hk (by rw [hm rfl, hc]) rfl
  | openLineComment hk hc | openBlockComment hk hc =>
    refine h.outer (by rw [hk]; rfl) ?_ rfl rfl
    simp [Step.opensQuote, hc, backtick]
  | closeString hk hc =>
    have hne : k.region ≠ .template := fun hr => by rw [hr] at hk; cases hk
    exact h.closed (Step.closesQuote_iff.mpr ⟨c, hc, by rw [hm rfl]⟩) (if_neg hne).symm
  | closeTemplate hk hc =>
    exact h.closed (Step.closesQuote_iff.mpr ⟨c, by rw [hk, hc]; rfl, by rw [hm rfl]⟩) (if_pos hk).symm
  | closeLineComment hk | closeBlockComment hk =>
    have hnone := h.coherent.outer (by rw [hk]; rfl)
    refine h.outer (by rw [hk]; rfl) (Step.opensQuote_of_not_readsCode (by rw [hk]; rfl)) ?_ rfl
    simp [Context.leave, Context.enter, hnone, Region.isOuter]
  | openInterpolation hk hc =>
    refine h.enters hk ?_ rfl
    simp [Step.closesQuote, hk, hc, Region.quote?, backtick]
  | openBrace hk hc => exact h.braces hk (Or.inl ⟨by rw [hm rfl, hc], rfl⟩)
  | closeBrace hk hc => exact h.braces hk (Or.inr ⟨by rw [hm rfl, hc], rfl⟩)

end Explains

/-! ## Along a trace -/

section Trace
variable {cs : List Char} {front back : List Step} {s : Step}

/-- What a step does to the open quotes it does to the context. -/
theorem Explains.of_mem (hs : s ∈ trace .start cs) {stack : List OpenQuote} (h : Explains stack s.before) :
    Explains (openBehind stack s) s.after := by
  obtain ⟨c, more, next, ht, ha, hm⟩ := exists_of_mem_trace hs
  obtain ⟨k, text, after⟩ := s
  obtain rfl : text = c :: more := ht
  obtain rfl : after = (k.step c next).1 := ha
  exact h.step (k.step_change c next) hm

theorem explains_before (h : trace .start cs = front ++ s :: back) :
    Explains (openQuotes front) s.before := by
  -- Along the steps before this one, of which each starts where the one before it ends.
  induction front using List.reverseRecOn generalizing s back with
  | nil =>
    rw [before_of_trace_eq h]
    exact .start
  | append_singleton front s' ih =>
    rw [List.append_assoc] at h
    have hs' : s' ∈ trace .start cs := by simp [h]
    rw [openQuotes_concat, before_eq_after h]
    exact (ih h).of_mem hs'

theorem explains_after (h : trace .start cs = front ++ s :: back) :
    Explains (openQuotes (front ++ [s])) s.after := by
  have hs : s ∈ trace .start cs := by simp [h]
  rw [openQuotes_concat]
  exact (explains_before h).of_mem hs

end Trace

/-! ## Where a quote that closes opened -/

/-- Of the quotes that the steps open, so many are open behind them. They close no other quotes. -/
inductive LeavesOpen : Nat → List Step → Prop
  | nil : LeavesOpen 0 []
  | opens {n : Nat} {steps : List Step} {s : Step} (h : LeavesOpen n steps) (ho : s.opensQuote = true) :
      LeavesOpen (n + 1) (steps ++ [s])
  | closes {n : Nat} {steps : List Step} {s : Step} (h : LeavesOpen (n + 1) steps)
      (hc : s.closesQuote = true) : LeavesOpen n (steps ++ [s])
  | stays {n : Nat} {steps : List Step} {s : Step} (h : LeavesOpen n steps) (ho : s.opensQuote = false)
      (hc : s.closesQuote = false) : LeavesOpen n (steps ++ [s])

/-- The quotes that are open before the steps stay open. -/
theorem LeavesOpen.exists_openBehind {n : Nat} {steps : List Step} (h : LeavesOpen n steps) (q : OpenQuote)
    (outer : List OpenQuote) : ∃ above q', steps.foldl openBehind (q :: outer) = above ++ q' :: outer ∧
      above.length = n ∧ q'.opening = q.opening := by
  induction h with
  | nil => exact ⟨[], q, rfl, rfl, rfl⟩
  | @opens _ _ s _ ho ih =>
    obtain ⟨above, q', hfold, rfl, hq⟩ := ih
    refine ⟨⟨s, []⟩ :: above, q', ?_, rfl, hq⟩
    rw [List.foldl_append, hfold]
    exact openBehind_opens ho
  | closes _ hc ih =>
    obtain ⟨above, q', hfold, hlength, hq⟩ := ih
    obtain ⟨_, above, rfl⟩ := List.exists_cons_of_length_eq_add_one hlength
    refine ⟨above, q', ?_, by simpa using hlength, hq⟩
    rw [List.foldl_append, hfold]
    exact openBehind_closes hc
  | stays _ ho hc ih =>
    obtain ⟨above, q', hfold, rfl, hq⟩ := ih
    rw [List.foldl_append, hfold]
    cases above with
    | nil => exact ⟨[], q'.push _, openBehind_stays ho hc, rfl, hq⟩
    | cons p above => exact ⟨p.push _ :: above, q', openBehind_stays ho hc, rfl, hq⟩

theorem exists_of_openQuotes {steps : List Step} {above outer : List OpenQuote} {q : OpenQuote}
    (h : openQuotes steps = above ++ q :: outer) : ∃ front since, steps = front ++ q.opening :: since ∧
      q.opening.opensQuote = true ∧ LeavesOpen above.length since := by
  -- The last step opens the quote, or is one of those since then: of its own, or of a quote above it.
  induction steps using List.reverseRecOn generalizing above q with
  | nil => simp [openQuotes] at h
  | append_singleton steps s ih =>
    rw [openQuotes_concat] at h
    rcases openBehind_cases (openQuotes steps) s with ⟨ho, hs⟩ | ⟨hc, hs⟩ | ⟨⟨ho, hc⟩, hs⟩ <;> rw [hs] at h
    · cases above with
      | nil =>
        obtain rfl := (List.cons.inj h).1
        exact ⟨steps, [], rfl, ho, .nil⟩
      | cons _ above =>
        obtain ⟨front, since, rfl, hq, hleaves⟩ := ih (List.cons.inj h).2
        exact ⟨front, since ++ [s], by simp, hq, hleaves.opens ho⟩
    · obtain ⟨p, hopen⟩ : ∃ p, openQuotes steps = (p :: above) ++ q :: outer := by
        cases hopen : openQuotes steps with
        | nil => simp [hopen] at h
        | cons p rest => exact ⟨p, by simpa [hopen] using h⟩
      obtain ⟨front, since, rfl, hq, hleaves⟩ := ih hopen
      exact ⟨front, since ++ [s], by simp, hq, hleaves.closes hc⟩
    · obtain ⟨above', q', hopen, hlength, hopening⟩ := exists_of_modifyHead h
      obtain ⟨front, since, rfl, hq, hleaves⟩ := ih hopen
      rw [hopening] at hq ⊢
      exact ⟨front, since ++ [s], by simp, hq, (hlength ▸ hleaves).stays ho hc⟩

/-! ## What a context recalls of the steps -/

theorem Explains.text_eq {stack : List OpenQuote} {k : Context} (h : Explains stack k)
    (hk : k.region = .template) : ∃ outer, k.templates = 0 :: outer := by
  obtain ⟨region, templates⟩ := k
  obtain rfl : region = .template := hk
  cases h with
  | outside ho => cases ho
  | string _ _ hr => cases hr
  | template => exact ⟨_, rfl⟩

theorem Explains.templates_eq {stack : List OpenQuote} {k : Context} (h : Explains stack k) :
    k.templates.map (fun n : Nat => (n : Int)) =
      (stack.filter OpenQuote.isTemplate).map OpenQuote.unclosed := by
  induction h with
  | outside _ ht => rw [ht]; rfl
  | @string q _ r c _ _ hr hc htext ih =>
    have hne : c ≠ backtick := by cases r <;> cases hr <;> cases hc <;> decide
    rw [List.filter_cons_of_neg (by simp [OpenQuote.isTemplate, htext, hne])]
    exact ih
  | template _ _ htext hnone ih =>
    rw [List.filter_cons_of_pos htext, List.map_cons, List.map_cons, ih, OpenQuote.unclosed_of_nil hnone]
    rfl
  | interpolation _ _ htext hn ih =>
    rw [List.filter_cons_of_pos htext, List.map_cons, List.map_cons, ih, hn]

theorem own_length_le (steps : List Step) : ∀ q ∈ openQuotes steps, q.own.length ≤ steps.length := by
  induction steps using List.reverseRecOn with
  | nil => simp [openQuotes]
  | append_singleton steps s ih =>
    intro q hq
    rw [openQuotes_concat] at hq
    rw [List.length_append, List.length_singleton]
    rcases mem_openBehind hq with rfl | hq | ⟨p, hp, rfl⟩
    · exact Nat.zero_le _
    · exact (ih q hq).trans (Nat.le_succ _)
    · rw [OpenQuote.push, List.length_append]
      exact Nat.add_le_add_right (ih p hp) 1

/-- What a context says of the steps before it. No template is open in the outer code and its comments, no
brace is open in the text of a template, and a template is open around its code. The counters are the braces
that each open template has open, told from its own steps. None is larger than the number of steps, so that
counters of a fixed width do for any shorter text. -/
structure Recalls (steps : List Step) (k : Context) : Prop where
  outer : k.region = .code ∨ k.region = .lineComment ∨ k.region = .blockComment → k.templates = []
  text : k.region = .template → ∃ outer, k.templates = 0 :: outer
  inner : k.region = .interpolation → k.templates ≠ []
  counters : k.templates.map (fun n : Nat => (n : Int)) = (openTemplates steps).map OpenQuote.unclosed
  bounded : ∀ n ∈ k.templates, n ≤ steps.length

theorem Explains.recalls {steps : List Step} {k : Context} (h : Explains (openQuotes steps) k) :
    Recalls steps k where
  outer hk := h.coherent.outer (by rcases hk with hk | hk | hk <;> rw [hk] <;> rfl)
  text := h.text_eq
  inner hk := h.coherent.inner (by rw [hk]; rfl)
  counters := h.templates_eq
  bounded n hn := by
    have hmem : (n : Int) ∈ (openTemplates steps).map OpenQuote.unclosed := by
      rw [openTemplates, ← h.templates_eq]
      exact List.mem_map_of_mem hn
    obtain ⟨q, hq, hcount⟩ := List.mem_map.mp hmem
    have hown := own_length_le steps q (List.mem_of_mem_filter hq)
    have hle := q.unclosed_le_length
    omega

/-- Each context along the steps recalls those before it. A step that closes a string or a template leads
back to the context before the one that opened it, with the same counters, and there is such a step. -/
structure Recalled (steps : List Step) : Prop where
  before : ∀ front s back, steps = front ++ s :: back → Recalls front s.before
  after : ∀ front s back, steps = front ++ s :: back → Recalls (front ++ [s]) s.after
  returns : ∀ front o mid s back, steps = front ++ o :: (mid ++ s :: back) → o.opensQuote = true →
    LeavesOpen 0 mid → s.closesQuote = true → s.after = o.before ∧ s.text = o.text
  opened : ∀ front s back, steps = front ++ s :: back → s.closesQuote = true →
    ∃ front' o mid, front = front' ++ o :: mid ∧ o.opensQuote = true ∧ LeavesOpen 0 mid

section Trace
variable {cs : List Char} {front mid back : List Step} {o s : Step}

theorem after_eq_before (h : trace .start cs = front ++ o :: (mid ++ s :: back)) (ho : o.opensQuote = true)
    (hmid : LeavesOpen 0 mid) (hc : s.closesQuote = true) : s.after = o.before ∧ s.text = o.text := by
  obtain ⟨above, q, hfold, habove, hq⟩ := hmid.exists_openBehind ⟨o, []⟩ (openQuotes front)
  obtain rfl := List.length_eq_zero_iff.mp habove
  have hopen : openQuotes (front ++ o :: mid) = q :: openQuotes front := by
    rw [openQuotes, List.foldl_append, List.foldl_cons, ← openQuotes, openBehind_opens ho, hfold]
    rfl
  have hcut : trace .start cs = (front ++ o :: mid) ++ s :: back := by rw [h]; simp
  obtain ⟨c, more, next, ht, ha, -⟩ := exists_of_mem_trace (show s ∈ trace .start cs by simp [h])
  have hbefore := explains_before hcut
  rw [hopen] at hbefore
  obtain ⟨hafter, htext, -⟩ := hbefore.closes hc (Step.after_eq_closing hc ht ha)
  rw [hafter, htext, hq]
  exact ⟨rfl, rfl⟩

theorem exists_opening (h : trace .start cs = front ++ s :: back) (hc : s.closesQuote = true) :
    ∃ front' o mid, front = front' ++ o :: mid ∧ o.opensQuote = true ∧ LeavesOpen 0 mid := by
  have hbefore := explains_before h
  obtain ⟨q, outer, hopen⟩ := List.exists_cons_of_ne_nil (hbefore.ne_nil_of_closesQuote hc)
  obtain ⟨front', mid, hfront, ho, hmid⟩ :=
    exists_of_openQuotes (show openQuotes front = [] ++ q :: outer from hopen)
  exact ⟨front', q.opening, mid, hfront, ho, hmid⟩

end Trace

/-- Along every text from code on, the contexts recall the steps, and what closes leads back. -/
theorem trace_recalled (cs : List Char) : Recalled (trace .start cs) where
  before _ _ _ h := (explains_before h).recalls
  after _ _ _ h := (explains_after h).recalls
  returns _ _ _ _ _ h ho hmid hc := after_eq_before h ho hmid hc
  opened _ _ _ h hc := exists_opening h hc

/-- A string in a template in a template: behind it both counters are what they were. -/
example :
    (openTemplates (trace .start "\x60a$\x7b \x7bb: [\x60$\x7b \x7b\x7b'\x7d'".toList)).map OpenQuote.unclosed =
        [2, 1] ∧
      Context.start.run "\x60a$\x7b \x7bb: [\x60$\x7b \x7b\x7b'\x7d'".toList = ⟨.interpolation, [2, 1]⟩ := by
  decide +kernel

end Florin.Lexical
