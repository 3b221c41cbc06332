import Florin.Lexical.Context
import Mathlib.Tactic.SplitIfs

/-! # Changes of context

All that one step can do to a context, with the region that it does it in and the character that it reads.
What holds along a trace is proved from this one list.
-/
namespace Florin.Lexical

namespace Region

def isComment : Region → Bool
  | .lineComment | .blockComment => true
  | _ => false

/-- Code, or a comment in it. -/
def isOuter : Region → Bool
  | .code | .lineComment | .blockComment => true
  | _ => false

/-- The text of a template, or code in it. -/
def isTemplate : Region → Bool
  | .template | .interpolation => true
  | _ => false

/-- The outer code, or code in a template. -/
def readsCode : Region → Bool
  | .code | .interpolation => true
  | _ => false

def isString : Region → Bool
  | .singleQuoted | .doubleQuoted => true
  | _ => false

/-- The quote that a string or a template starts and ends with. -/
def quote? : Region → Option Char
  | .singleQuoted => some '\''
  | .doubleQuoted => some '"'
  | .template => some backtick
  | _ => none

/-- The single characters that the region does not read over. -/
def marks : Region → List Char
  | .code => ['\'', '"', backtick]
  | .interpolation => ['\'', '"', backtick, '{', '}']
  | r => r.quote?.toList

theorem isOuter_of_isComment {r : Region} (h : r.isComment = true) : r.isOuter = true := by
  cases r <;> simp_all [isComment, isOuter]

theorem escape_not_mem_marks (r : Region) : '\\' ∉ r.marks := by
  cases r <;> decide

theorem readsCode_of_isComment {r : Region} (h : r.isComment = true) : r.readsCode = false := by
  cases r <;> simp_all [isComment, readsCode]

end Region

namespace Context

/-- A step that starts with the character leads from the context to another. It sees the next character, and
it may take that one too. -/
inductive Change (k : Context) (c : Char) (next : Option Char) : Bool → Context → Prop
  | stay (hc : c ∉ k.region.marks) : Change k c next false k
  | escape (hk : k.region.quote?.isSome = true) (hc : c = '\\') : Change k c next true k
  | openString {r : Region} (hk : k.region.readsCode = true) (hr : r.isString = true)
      (hc : r.quote? = some c) : Change k c next false (k.enter r)
  | openTemplate (hk : k.region.readsCode = true) (hc : c = backtick) : Change k c next false k.openTemplate
  | openLineComment (hk : k.region = .code) (hc : c = '/') (hnext : next = some '/') :
      Change k c next true (k.enter .lineComment)
  | openBlockComment (hk : k.region = .code) (hc : c = '/') (hnext : next = some '*') :
      Change k c next true (k.enter .blockComment)
  | closeString (hk : k.region.isString = true) (hc : k.region.quote? = some c) : Change k c next false k.leave
  | closeTemplate (hk : k.region = .template) (hc : c = backtick) : Change k c next false k.closeTemplate
  | closeLineComment (hk : k.region = .lineComment) (hc : c = '\n') : Change k c next false k.leave
  | closeBlockComment (hk : k.region = .blockComment) (hc : c = '*') (hnext : next = some '/') :
      Change k c next true k.leave
  | openInterpolation (hk : k.region = .template) (hc : c = '$') (hnext : next = some '{') :
      Change k c next true (k.enter .interpolation)
  | openBrace (hk : k.region = .interpolation) (hc : c = '{') : Change k c next false k.openBrace
  | closeBrace (hk : k.region = .interpolation) (hc : c = '}') : Change k c next false k.closeBrace

theorem region_openBrace (k : Context) : k.openBrace.region = k.region := by
  unfold openBrace
  split <;> rfl

theorem region_closeBrace (k : Context) :
    k.closeBrace.region = k.region ∨ k.closeBrace.region = .template := by
  unfold closeBrace
  split
  · exact Or.inl rfl
  · exact Or.inr rfl

theorem isComment_leave (k : Context) : k.leave.region.isComment = false := by
  unfold leave
  split <;> rfl

section Change
variable {k k' : Context} {c : Char} {next : Option Char} {wide : Bool}

/-- From a comment there is no way but out of it. -/
theorem Change.of_isComment (h : Change k c next wide k') (hk : k.region.isComment = true) :
    k' = k ∨ k' = k.leave := by
  cases h with
  | stay | escape => exact Or.inl rfl
  | closeString | closeLineComment | closeBlockComment => exact Or.inr rfl
  | openString hr | openTemplate hr => exact absurd hr (by simp [Region.readsCode_of_isComment hk])
  | openLineComment hr | openBlockComment hr | closeTemplate hr | openInterpolation hr | openBrace hr
  | closeBrace hr =>
    rw [hr] at hk
    cases hk

/-- Into a comment there is no way but by a slash in code. -/
theorem Change.into_isComment (h : Change k c next wide k') (hk : k'.region.isComment = true) :
    k' = k ∨ k.region = .code ∧ c = '/' := by
  cases h with
  | stay | escape => exact Or.inl rfl
  | openLineComment hr hc | openBlockComment hr hc => exact Or.inr ⟨hr, hc⟩
  | @openString r _ hr => cases r <;> cases hr <;> cases hk
  | openTemplate | openInterpolation => cases hk
  | closeString | closeTemplate | closeLineComment | closeBlockComment =>
    exact absurd hk (by simp [Context.closeTemplate, isComment_leave])
  | openBrace hr =>
    rw [region_openBrace, hr] at hk
    cases hk
  | closeBrace hr =>
    rcases region_closeBrace k with h | h <;> rw [h] at hk
    · rw [hr] at hk
      cases hk
    · cases hk

/-- At the end of a text only an escape in a string or in a template would take a second character. -/
theorem Change.quoted_of_wide (h : Change k c none true k') : k' = k ∧ k.region.quote?.isSome = true := by
  cases h with
  | escape hk => exact ⟨rfl, hk⟩
  | openLineComment _ _ hnext | openBlockComment _ _ hnext | closeBlockComment _ _ hnext
  | openInterpolation _ _ hnext => cases hnext

end Change

theorem stepQuoted_change {k : Context} {quote : Char} (hk : k.region.isString = true)
    (hquote : k.region.quote? = some quote) (c : Char) (next : Option Char) :
    Change k c next (k.stepQuoted quote c).2 (k.stepQuoted quote c).1 := by
  have hmarks : k.region.marks = [quote] := by
    cases hr : k.region <;> rw [hr] at hquote <;> cases hquote <;> rfl
  unfold stepQuoted
  split_ifs with hescape hclose
  · exact .escape (by rw [hquote]; rfl) hescape
  · exact .closeString hk (hclose ▸ hquote)
  · exact .stay (by simpa [hmarks] using hclose)

/-- The list is complete. -/
theorem step_change (k : Context) (c : Char) (next : Option Char) :
    Change k c next (k.step c next).2 (k.step c next).1 := by
  obtain ⟨region, templates⟩ := k
  cases region
  case code =>
    simp only [step, stepCode, Bool.and_eq_true, decide_eq_true_eq]
    split_ifs with hsingle hdouble htick hline hblock
    · exact .openString rfl rfl (congrArg some hsingle.symm)
    · exact .openString rfl rfl (congrArg some hdouble.symm)
    · exact .openTemplate rfl htick
    · exact .openLineComment rfl hline.1 hline.2
    · exact .openBlockComment rfl hblock.1 hblock.2
    · exact .stay (by simp [Region.marks, hsingle, hdouble, htick])
  case singleQuoted => exact stepQuoted_change rfl rfl c next
  case doubleQuoted => exact stepQuoted_change rfl rfl c next
  case lineComment =>
    simp only [step]
    split_ifs with hbreak
    · exact .closeLineComment rfl hbreak
    · exact .stay List.not_mem_nil
  case blockComment =>
    simp only [step, Bool.and_eq_true, decide_eq_true_eq]
    split_ifs with hclose
    · exact .closeBlockComment rfl hclose.1 hclose.2
    · exact .stay List.not_mem_nil
  case template =>
    simp only [step, stepTemplate, Bool.and_eq_true, decide_eq_true_eq]
    split_ifs with hslash htick hopen
    · exact .escape rfl hslash
    · exact .closeTemplate rfl htick
    · exact .openInterpolation rfl hopen.1 hopen.2
    · exact .stay (by simpa [Region.marks, Region.quote?] using htick)
  case interpolation =>
    simp only [step, stepInterpolation]
    split_ifs with hsingle hdouble htick hopen hclose
    · exact .openString rfl rfl (congrArg some hsingle.symm)
    · exact .openString rfl rfl (congrArg some hdouble.symm)
    · exact .openTemplate rfl htick
    · exact .openBrace rfl hopen
    · exact .closeBrace rfl hclose
    · exact .stay (by simp [Region.marks, hsingle, hdouble, htick, hopen, hclose])

theorem step_change_wide {k : Context} {c : Char} {next : Option Char} (hw : (k.step c next).2 = true) :
    Change k c next true (k.step c next).1 := hw ▸ step_change k c next

/-! ## The next character -/

/-- The pairs of characters that are read together for what they mean, by the region that reads them. -/
def pairs : Region → List (Char × Char)
  | .code => [('/', '/'), ('/', '*')]
  | .blockComment => [('*', '/')]
  | .template => [('$', '{')]
  | _ => []

/-- A step that takes two characters reads a pair, or what is escaped in a string or in a template. -/
theorem Change.pair_of_wide {k k' : Context} {c d : Char} (h : Change k c (some d) true k') :
    k' = k ∧ k.region.quote?.isSome = true ∨ (c, d) ∈ pairs k.region := by
  cases h with
  | escape hk => exact Or.inl ⟨rfl, hk⟩
  | openLineComment hk hc hnext | openBlockComment hk hc hnext | closeBlockComment hk hc hnext
  | openInterpolation hk hc hnext =>
    obtain rfl := Option.some.inj hnext
    exact Or.inr (by simp [hk, hc, pairs])

/-- The next character matters in a pair alone. Without it the first one means nothing. -/
theorem step_some (k : Context) (c d : Char) : k.step c (some d) = k.step c none ∨
    (c, d) ∈ pairs k.region ∧ (k.step c (some d)).2 = true ∧ k.step c none = (k, false) := by
  by_cases hpair : (c, d) ∈ pairs k.region
  · refine Or.inr ⟨hpair, ?_⟩
    obtain ⟨region, templates⟩ := k
    cases region <;> simp only [pairs, List.mem_cons, List.not_mem_nil, Prod.mk.injEq, or_false] at hpair
    case code => obtain ⟨rfl, rfl⟩ | ⟨rfl, rfl⟩ := hpair <;> exact ⟨rfl, rfl⟩
    case blockComment =>
      obtain ⟨rfl, rfl⟩ := hpair
      exact ⟨rfl, rfl⟩
    case template =>
      obtain ⟨rfl, rfl⟩ := hpair
      exact ⟨rfl, rfl⟩
  · refine Or.inl ?_
    obtain ⟨region, templates⟩ := k
    cases region <;> simp only [pairs, List.mem_cons, List.not_mem_nil, Prod.mk.injEq, or_false, not_or] at hpair
    case code => simp [step, stepCode, hpair]
    case blockComment => simp [step, hpair]
    case template => simp [step, stepTemplate, hpair]
    all_goals rfl

theorem narrow_of_not_quoted {k : Context} {c : Char} (h : (k.step c none).1.region.quote? = none) :
    (k.step c none).2 = false := by
  rw [Bool.eq_false_iff]
  intro hw
  obtain ⟨hs, hquote⟩ := (step_change_wide hw).quoted_of_wide
  rw [hs] at h
  simp [h] at hquote

/-- Where a text ends outside of a string and the text of a template, the next character is read on its own,
unless the two make a pair there. -/
theorem step_some_of_not_quoted {k : Context} {c d : Char} (h : (k.step c none).1.region.quote? = none)
    (hpair : (c, d) ∉ pairs (k.step c none).1.region) : k.step c (some d) = ((k.step c none).1, false) := by
  rcases step_some k c d with hs | ⟨hmem, -, hs⟩
  · rw [hs, ← narrow_of_not_quoted h]
  · rw [hs] at hpair
    exact absurd hmem hpair

end Context

end Florin.Lexical
