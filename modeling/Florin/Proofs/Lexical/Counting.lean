import Florin.Proofs.Lexical.Nested
import Mathlib.Order.Bounds.Basic

/-! # Where the counts come out

The scan for a closer and the scan for the end of an expression carry counts along, and stop by them. What
the counts are at a step can also be told from all the steps before it, without a scan. Each scan stops at
the first step of which the counts say so, and goes through to the end if there is none.
-/
namespace Florin.Lexical

/-! ## The first step of a kind -/

/-- From an index on, the step at the place is of this kind; the steps before it have a say in it. -/
def Reaches (p : List Step → Step → Prop) (cs : List Char) (start place : Nat) : Prop :=
  ∃ front s back, trace .start (cs.drop start) = front ++ s :: back ∧
    start + (spell front).length = place ∧ p front s

theorem append_eq_append_cons {xs ys front more : List α} {x : α} (h : xs ++ ys = front ++ x :: more) :
    (∃ mid, xs = front ++ x :: mid) ∨ ∃ mid, front = xs ++ mid ∧ ys = mid ++ x :: more := by
  rcases List.append_eq_append_iff.mp h with ⟨mid, hfront, hys⟩ | ⟨mid, hxs, hcons⟩
  · exact Or.inr ⟨mid, hfront, hys⟩
  · cases mid with
    | nil => exact Or.inr ⟨[], by simpa using hxs.symm, by simpa using hcons.symm⟩
    | cons x' mid =>
      obtain ⟨rfl, -⟩ := List.cons.inj hcons
      exact Or.inl ⟨mid, hxs⟩

/-- A scan from this state on, behind these steps, stops at steps of the kind and at no others. -/
structure Tells (next : σ → Step → Option σ) (state : σ) (lead : List Step)
    (p : List Step → Step → Prop) : Prop where
  behind : ∀ {front s more}, lead = front ++ s :: more → ¬p front s
  stops : ∀ {front last} (s), front.foldlM next state = some last →
    (next last s = none ↔ p (lead ++ front) s)

namespace Tells
variable {next : σ → Step → Option σ} {state last : σ} {lead front : List Step}
  {p : List Step → Step → Prop}

theorem earlier (h : Tells next state lead p) (hfront : front.foldlM next state = some last)
    {front' more : List Step} {s : Step} (hcut : lead ++ front = front' ++ s :: more) : ¬p front' s := by
  rcases append_eq_append_cons hcut with ⟨mid, hlead⟩ | ⟨read, rfl, rfl⟩
  · exact h.behind hlead
  · rw [List.foldlM_append] at hfront
    obtain ⟨mid, hmid, hnext⟩ := Option.bind_eq_some_iff.mp hfront
    obtain ⟨after, hs, -⟩ := Option.bind_eq_some_iff.mp hnext
    rw [← h.stops s hmid, hs]
    exact Option.some_ne_none after

variable {cs : List Char} {start : Nat}

/-- Where the scan stops is the first place with a step of the kind. -/
theorem isLeast (h : Tells next state lead p) (hfront : front.foldlM next state = some last) {s : Step}
    {back : List Step} (ht : trace .start (cs.drop start) = lead ++ (front ++ s :: back))
    (hs : next last s = none) :
    IsLeast {place | Reaches p cs start place} (start + (spell (lead ++ front)).length) := by
  rw [← List.append_assoc] at ht
  refine ⟨⟨_, s, back, ht, rfl, (h.stops s hfront).mp hs⟩, ?_⟩
  rintro place ⟨front', s', back', ht', rfl, hp⟩
  rcases append_eq_append_cons (ht.symm.trans ht') with ⟨mid, hcut⟩ | ⟨mid, rfl, -⟩
  · exact absurd hp (h.earlier hfront hcut)
  · rw [spell_append _ mid, List.length_append]
    omega

theorem not_reaches (h : Tells next state lead p) (hfront : front.foldlM next state = some last)
    (ht : trace .start (cs.drop start) = lead ++ front) (place : Nat) : ¬Reaches p cs start place := by
  rintro ⟨front', s', back', ht', -, hp⟩
  exact h.earlier hfront (ht.symm.trans ht') hp

end Tells

/-! ## The closer of a bracket -/

namespace Bracket

/-- How many more brackets of this kind the steps open in code than they close. -/
def excess (b : Bracket) (steps : List Step) : Int :=
  steps.countP (·.isCodeChar b.opener) - steps.countP (·.isCodeChar b.closer)

variable {b : Bracket}

@[simp] theorem excess_nil : b.excess [] = 0 := rfl

theorem excess_append (xs ys : List Step) : b.excess (xs ++ ys) = b.excess xs + b.excess ys := by
  simp only [excess, List.countP_append]
  omega

theorem isCodeChar_closer_of_opener {s : Step} (h : s.isCodeChar b.opener = true) :
    s.isCodeChar b.closer = false := by
  rw [s.isCodeChar_eq h]
  exact decide_eq_false (b.opener_ne_closer b).symm

theorem excess_opener {s : Step} (h : s.isCodeChar b.opener = true) : b.excess [s] = 1 := by
  simp [excess, h, isCodeChar_closer_of_opener h]

theorem excess_closer {s : Step} (h : s.isCodeChar b.closer = true) : b.excess [s] = -1 := by
  have hopen : s.isCodeChar b.opener = false := by
    by_contra hopen
    simp [isCodeChar_closer_of_opener (by simpa using hopen)] at h
  simp [excess, h, hopen]

theorem excess_of_not_closer {s : Step} (h : s.isCodeChar b.closer = false) : 0 ≤ b.excess [s] := by
  have hclosed : [s].countP (·.isCodeChar b.closer) = 0 := by simp [h]
  rw [excess, hclosed]
  omega

theorem excess_of_inside? {depth depth' : Nat} {s : Step} (h : b.inside? depth s = some depth') :
    (depth' : Int) = depth + b.excess [s] := by
  simp only [inside?, Bool.and_eq_true, decide_eq_true_eq, Option.ite_none_left_eq_some,
    Option.some.injEq] at h
  obtain ⟨hgo, rfl⟩ := h
  rw [depthAfter]
  by_cases hopen : s.isCodeChar b.opener = true
  · rw [if_pos hopen, excess_opener hopen]
    omega
  · rw [if_neg hopen]
    by_cases hclose : s.isCodeChar b.closer = true
    · have hpos : depth ≠ 0 := fun hzero => hgo ⟨hclose, hzero⟩
      rw [if_pos hclose, excess_closer hclose]
      omega
    · rw [if_neg hclose]
      simp [excess, hopen, hclose]

theorem excess_of_foldlM {steps : List Step} {depth depth' : Nat}
    (h : steps.foldlM b.inside? depth = some depth') : (depth' : Int) = depth + b.excess steps := by
  induction steps generalizing depth with
  | nil =>
    obtain rfl := Option.some.inj h
    simp
  | cons s steps ih =>
    obtain ⟨mid, hs, hrest⟩ := Option.bind_eq_some_iff.mp h
    have hmid := excess_of_inside? hs
    have hsteps := ih hrest
    rw [← List.singleton_append, excess_append]
    omega

/-- In code, with as many brackets of this kind closed as opened by the step and those before it. -/
def Evens (b : Bracket) (front : List Step) (s : Step) : Prop :=
  s.before.isCode = true ∧ b.excess (front ++ [s]) = 0

theorem excess_opening : b.excess [b.opening] = 1 := excess_opener (Step.isCodeChar_iff.mpr ⟨rfl, rfl⟩)

/-- The scan behind an opener stops where as much is closed as is opened. -/
theorem tells_inside? (b : Bracket) : Tells b.inside? 0 [b.opening] b.Evens where
  behind := by
    rintro front s more hlead ⟨-, heven⟩
    obtain rfl : front = [] := by
      cases front with
      | nil => rfl
      | cons s' front => simp at hlead
    obtain rfl := (List.cons.inj hlead).1
    rw [List.nil_append, excess_opening] at heven
    exact absurd heven (by decide)
  stops := by
    intro front depth s hfront
    have hdepth := excess_of_foldlM hfront
    rw [Evens, excess_append, excess_append, excess_opening]
    constructor
    · intro hstop
      obtain ⟨hclose, rfl⟩ := isCodeChar_of_inside? hstop
      rw [excess_closer hclose]
      exact ⟨(Step.isCodeChar_iff.mp hclose).1, by omega⟩
    · rintro ⟨-, heven⟩
      by_cases hclose : s.isCodeChar b.closer = true
      · rw [excess_closer hclose] at heven
        simp [inside?, hclose, show depth = 0 by omega]
      · have hpos := excess_of_not_closer (by simpa using hclose)
        omega

/-- Where no closer is found, the scan goes through to the end. -/
theorem exists_of_enclosed?_eq_none {cs : List Char} (h : b.enclosed? cs = none) :
    ∃ depth, (trace .start cs).foldlM b.inside? 0 = some depth := by
  rw [enclosed?, stepsWhile_eq] at h
  obtain ⟨happ, depth, hfront, hstop⟩ := splitAtStop_spec b.inside? 0 (trace .start cs)
  generalize splitAtStop b.inside? 0 (trace .start cs) = parts at h happ hfront hstop
  obtain ⟨front, back⟩ := parts
  cases back with
  | nil => exact ⟨depth, by rw [← happ, List.append_nil]; exact hfront⟩
  | cons s back =>
    obtain ⟨-, htext⟩ := Step.isCodeChar_iff.mp (isCodeChar_of_inside? (hstop s rfl)).1
    obtain ⟨more, hmore⟩ := List.head?_eq_some_iff.mp htext
    simp [hmore] at h

end Bracket

/-! ## The end of an expression -/

namespace Bracket

/-- How many brackets of this kind the steps leave open. A closer closes one if there is one. -/
def unclosed (b : Bracket) (steps : List Step) : Nat := steps.foldl b.depthAfter 0

end Bracket

/-- The step holds a closer without its opener, or a separator outside of all brackets. -/
def EndsExpression (front : List Step) (s : Step) : Prop :=
  (∃ b : Bracket, s.isCodeChar b.closer = true ∧ b.unclosed front = 0) ∨
    (s.isCodeChar ',' = true ∨ s.isCodeChar ';' = true) ∧ ∀ b : Bracket, b.unclosed front = 0

namespace Nesting

theorem count_after? {n n' : Nesting} {s : Step} (h : n.after? s = some n') (b : Bracket) :
    n'.count b = b.depthAfter (n.count b) s := by
  rcases s.bracket_cases with ⟨b', hb⟩ | ⟨b', hb⟩ | hfree
  · rw [after?_opener hb, Option.some.injEq] at h
    rw [← h, count_put, Bracket.depthAfter, s.isCodeChar_eq hb, s.isCodeChar_eq hb]
    by_cases hsame : b = b'
    · simp [hsame]
    · simp [hsame, Bracket.opener_inj, (Bracket.opener_ne_closer b' b).symm]
  · rw [after?_closer hb, Option.ite_none_left_eq_some, Option.some.injEq] at h
    rw [← h.2, count_put, Bracket.depthAfter, s.isCodeChar_eq hb, s.isCodeChar_eq hb]
    by_cases hsame : b = b'
    · simp [hsame, Bracket.opener_ne_closer]
    · simp [hsame, Bracket.closer_inj, Bracket.opener_ne_closer]
  · rw [eq_of_after?_of_free hfree h, Bracket.depthAfter, hfree _ b.opener_mem, hfree _ b.closer_mem]
    rfl

theorem count_foldlM {steps : List Step} {n n' : Nesting} (h : steps.foldlM after? n = some n')
    (b : Bracket) : n'.count b = steps.foldl b.depthAfter (n.count b) := by
  induction steps generalizing n with
  | nil =>
    obtain rfl := Option.some.inj h
    rfl
  | cons s steps ih =>
    obtain ⟨mid, hs, hrest⟩ := Option.bind_eq_some_iff.mp h
    rw [List.foldl_cons, ← count_after? hs b]
    exact ih hrest

theorem after?_separator {s : Step} {c : Char} (hc : c = ',' ∨ c = ';') (h : s.isCodeChar c = true)
    (n : Nesting) : n.after? s = if n = .zero then none else some n := by
  obtain ⟨hcode, htext⟩ := Step.isCodeChar_iff.mp h
  have hopener : Bracket.ofOpener? c = none := by rcases hc with rfl | rfl <;> decide
  have hcloser : Bracket.ofCloser? c = none := by rcases hc with rfl | rfl <;> decide
  rcases hc with rfl | rfl <;> simp [after?, hcode, htext, hopener, hcloser]

/-- The scan for the end of an expression stops as the brackets say that are open. -/
theorem tells_after? : Tells after? .zero [] EndsExpression where
  behind := by simp
  stops := by
    intro front n s hfront
    have hcount (b : Bracket) : b.unclosed front = n.count b := by
      rw [count_foldlM hfront b, count_zero]
      rfl
    simp only [EndsExpression, List.nil_append, hcount]
    constructor
    · intro hstop
      rcases stop_cases hstop with hclose | rfl
      · exact Or.inl hclose
      · rcases s.bracket_cases with ⟨b, hb⟩ | ⟨b, hb⟩ | hfree
        · simp [after?_opener hb] at hstop
        · exact Or.inl ⟨b, hb, count_zero b⟩
        · refine Or.inr ⟨?_, count_zero⟩
          by_contra hno
          rw [not_or, Bool.not_eq_true, Bool.not_eq_true] at hno
          rw [after?_of_isCodeChar hfree (Or.inr (by simpa using hno))] at hstop
          exact Option.some_ne_none _ hstop
    · rintro (⟨b, hb, hzero⟩ | ⟨hsep, hzero⟩)
      · rw [after?_closer hb, if_pos hzero]
      · obtain rfl := eq_zero_of_count hzero
        rcases hsep with hsep | hsep
        · rw [after?_separator (Or.inl rfl) hsep, if_pos rfl]
        · rw [after?_separator (Or.inr rfl) hsep, if_pos rfl]

end Nesting

end Florin.Lexical
