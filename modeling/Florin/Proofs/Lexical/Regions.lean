import Florin.Lexical.Expression
import Florin.Proofs.Lexical.Trace

/-! # Regions that a scan meets

A scan from code on is in a template or an interpolation only while a template is open, and in code or a
comment only while none is. Blanks and comments read no code.
-/
namespace Florin.Lexical
open Text

namespace Context

/-- What a scan from code meets: a template is open around its text and its code, and none is open
around the outer code and its comments. -/
structure Coherent (k : Context) : Prop where
  outer : k.region.isOuter = true → k.templates = []
  inner : k.region.isTemplate = true → k.templates ≠ []

theorem coherent_nil {r : Region} (h : r.isTemplate = false) : Coherent ⟨r, []⟩ :=
  ⟨fun _ => rfl, fun ht => absurd ht (by simp [h])⟩

theorem coherent_cons {r : Region} (h : r.isOuter = false) (d : Nat) (ts : List Nat) :
    Coherent ⟨r, d :: ts⟩ :=
  ⟨fun ho => absurd ho (by simp [h]), fun _ => List.cons_ne_nil d ts⟩

theorem coherent_of_isString {r : Region} (h : r.isString = true) (ts : List Nat) : Coherent ⟨r, ts⟩ := by
  refine ⟨fun ho => ?_, fun hi => ?_⟩
  · cases r <;> cases h <;> cases ho
  · cases r <;> cases h <;> cases hi

theorem start_coherent : start.Coherent := coherent_nil rfl

theorem leave_coherent (k : Context) : k.leave.Coherent := by
  obtain ⟨region, templates⟩ := k
  cases templates with
  | nil => exact coherent_nil rfl
  | cons d ts => exact coherent_cons rfl d ts

theorem openBrace_coherent {k : Context} (hk : k.Coherent) : k.openBrace.Coherent := by
  obtain ⟨region, templates⟩ := k
  cases templates with
  | nil => exact hk
  | cons d ts => exact ⟨fun ho => absurd (hk.outer ho) (List.cons_ne_nil d ts), fun _ => List.cons_ne_nil _ ts⟩

theorem closeBrace_coherent {k : Context} (hk : k.Coherent) (ht : k.templates ≠ []) : k.closeBrace.Coherent := by
  obtain ⟨region, _ | ⟨_ | d, ts⟩⟩ := k
  · exact absurd rfl ht
  · exact coherent_cons rfl 0 ts
  · exact ⟨fun ho => absurd (hk.outer ho) (List.cons_ne_nil _ ts), fun _ => List.cons_ne_nil d ts⟩

theorem Change.coherent {k k' : Context} {c : Char} {next : Option Char} {wide : Bool}
    (h : Change k c next wide k') (hk : k.Coherent) : k'.Coherent := by
  cases h with
  | stay | escape => exact hk
  | closeString | closeLineComment | closeBlockComment => exact leave_coherent k
  | closeTemplate => exact leave_coherent _
  | openString _ hr => exact coherent_of_isString hr k.templates
  | openTemplate => exact coherent_cons rfl 0 k.templates
  | openLineComment hr | openBlockComment hr => exact ⟨fun _ => hk.outer (by rw [hr]; rfl), by rintro ⟨⟩⟩
  | openInterpolation hr => exact ⟨by rintro ⟨⟩, fun _ => hk.inner (by rw [hr]; rfl)⟩
  | openBrace => exact openBrace_coherent hk
  | closeBrace hr => exact closeBrace_coherent hk (hk.inner (by rw [hr]; rfl))

theorem step_coherent {k : Context} (hk : k.Coherent) (c : Char) (next : Option Char) :
    (k.step c next).1.Coherent := (step_change k c next).coherent hk

/-- Of code and its comments, all but the comments is code. -/
theorem eq_start_of_isOuter {k : Context} (hk : k.Coherent) (ho : k.region.isOuter = true)
    (hc : ¬k.region.isComment = true) : k = start := by
  obtain ⟨region, templates⟩ := k
  obtain rfl : templates = [] := hk.outer ho
  cases region <;> simp_all [Region.isOuter, Region.isComment, start]

theorem isOuter_step_of_isComment {k : Context} (hk : k.Coherent) (h : k.region.isComment = true) (c : Char)
    (next : Option Char) : (k.step c next).1.region.isOuter = true := by
  have houter := Region.isOuter_of_isComment h
  rcases (step_change k c next).of_isComment h with hs | hs <;> rw [hs]
  · exact houter
  · simp [leave, enter, hk.outer houter, Region.isOuter]

end Context

/-! ## Blanks and comments -/

/-- A step that reads blanks or a comment. -/
def Step.isVoid (s : Step) : Bool :=
  s.before.region.isComment || s.after.region.isComment || s.text.all isBlank

namespace Step

theorem isVoid_of_isSilent {s : Step} (h : s.isSilent = true) : s.isVoid = true := by
  simp only [isSilent, Bool.or_eq_true, decide_eq_true_eq] at h
  rcases h with (h | h) | h <;> simp [isVoid, h, Region.isComment]

theorem isCodeChar_of_isVoid {k : Context} {cs : List Char} {s : Step} (hs : s ∈ trace k cs)
    (hvoid : s.isVoid = true) {c : Char} (hblank : isBlank c = false) (hslash : c ≠ '/') :
    s.isCodeChar c = false := by
  rw [Bool.eq_false_iff]
  intro hcode
  simp only [isCodeChar, Bool.and_eq_true, decide_eq_true_eq] at hcode
  obtain ⟨hbefore, hc⟩ := hcode
  obtain ⟨c', more, next, ht, hafter, -⟩ := exists_of_mem_trace hs
  rw [ht, List.head?_cons, Option.some.injEq] at hc
  subst hc
  have hregion : s.before.region = .code := by simpa [Context.isCode] using hbefore
  have hnext : s.after.region.isComment = false := by
    rw [Bool.eq_false_iff, hafter]
    intro h
    rcases (Context.step_change _ _ _).into_isComment h with hs | ⟨-, hs⟩
    · rw [hs, hregion] at h
      cases h
    · exact hslash hs
  have hcode : Region.code.isComment = false := rfl
  simp [isVoid, hregion, hcode, hnext, ht, hblank] at hvoid

end Step

section First
variable {k : Context} {c : Char} {cs : List Char}

theorem isOuter_of_isVoid (hk : k.Coherent) (ho : k.region.isOuter = true)
    (hv : (firstStep k c cs).isVoid = true) : (firstStep k c cs).after.region.isOuter = true := by
  by_cases hcomment : k.region.isComment = true
  · exact Context.isOuter_step_of_isComment hk hcomment c cs.head?
  obtain rfl := Context.eq_start_of_isOuter hk ho hcomment
  by_cases hafter : (firstStep .start c cs).after.region.isComment = true
  · exact Region.isOuter_of_isComment hafter
  have hblank : isBlank c = true := by
    have hall : (firstStep .start c cs).text.all isBlank = true := by
      simpa [Step.isVoid, hafter, firstStep_before, hcomment] using hv
    exact List.all_eq_true.mp hall c (List.mem_of_mem_head? (firstStep_head _ c cs))
  have hs := Context.step_start_of_isQuiet (isQuiet_of_isIdle (isIdle_of_isBlank hblank)) cs.head?
  rw [firstStep, hs]
  rfl

theorem firstStep_of_not_isVoid (hk : k.Coherent) (ho : k.region.isOuter = true)
    (hv : (firstStep k c cs).isVoid = false) : k = .start ∧ isBlank c = false ∧
      (k.step c cs.head?).2 = false ∧ (firstStep k c cs).after.region.isComment = false := by
  have hafter : (k.step c cs.head?).1.region.isComment = false := by
    simp only [Step.isVoid, Bool.or_eq_false_iff] at hv
    exact hv.1.2
  have hcomment : ¬k.region.isComment = true := by
    simp only [Step.isVoid, Bool.or_eq_false_iff, firstStep_before] at hv
    simpa using hv.1.1
  obtain rfl := Context.eq_start_of_isOuter hk ho hcomment
  have hnarrow : (Context.start.step c cs.head?).2 = false := by
    simp only [Context.step, Context.start, Context.stepCode, Context.enter] at hafter ⊢
    split_ifs at hafter ⊢ <;> simp_all [Region.isComment]
  refine ⟨rfl, ?_, hnarrow, hafter⟩
  rw [firstStep_of_narrow _ _ _ hnarrow] at hv
  simpa [Step.isVoid, hafter, hcomment] using hv

end First

end Florin.Lexical
