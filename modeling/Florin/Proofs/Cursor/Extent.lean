import Florin.Proofs.Cursor.Scanners
import Florin.Proofs.Lexical.Counting

/-! # Extents by index

Where a loop for a closer or for the end of an expression stops, told from the steps over the text from its
start on. What it returns is the text up to there, which is lexically closed on its own.
-/
namespace Florin.Cursor
open Text Lexical

theorem exists_of_getElem? {cs : List Char} {start : Nat} {c : Char} (h : cs[start]? = some c) :
    ∃ front after, cs = front ++ c :: after ∧ front.length = start := by
  obtain ⟨hlt, hc⟩ := List.getElem?_eq_some_iff.mp h
  refine ⟨cs.take start, cs.drop (start + 1), ?_, List.length_take_of_le hlt.le⟩
  rw [← hc, ← List.drop_eq_getElem_cons hlt, List.take_append_drop]

theorem drop_take_of_drop {cs mid back : List Char} {start : Nat} (h : cs.drop start = mid ++ back) :
    (cs.take (start + mid.length)).drop start = mid := by
  rw [← List.take_drop, h, List.take_left]

/-! ## Matching brackets -/

/-- What is found for an opener: the first place where its kind of brackets comes out even, with the text
between the two. On its own that text has the steps that it has inside of the list, and ends in code. -/
structure Matched (b : Bracket) (cs : List Char) (start : Nat) (found : Option (List Char × Nat)) :
    Prop where
  eq_some_iff : ∀ inner last, found = some (inner, last) ↔
    IsLeast {place | Reaches b.Evens cs start place} last ∧ inner = (cs.take last).drop (start + 1)
  eq_none_iff : found = none ↔ ∀ place, ¬Reaches b.Evens cs start place
  alone : ∀ inner last, found = some (inner, last) → Context.start.run inner = .start ∧
    ∃ back, trace .start (cs.drop start) = b.opening :: (trace .start inner ++ b.closing :: back)

theorem trace_opener (b : Bracket) (cs : List Char) :
    trace .start (b.opener :: cs) = b.opening :: trace .start cs := trace_cons_of_isQuiet b.isQuiet_opener cs

theorem trace_closer (b : Bracket) (cs : List Char) :
    trace .start (b.closer :: cs) = b.closing :: trace .start cs := trace_cons_of_isQuiet b.isQuiet_closer cs

namespace Matched
variable {b : Bracket} {cs : List Char} {start : Nat}

theorem of_not_reaches (h : ∀ place, ¬Reaches b.Evens cs start place) : Matched b cs start none where
  eq_some_iff _ last :=
    ⟨fun hfound => absurd hfound.symm (Option.some_ne_none _), fun hleast => absurd hleast.1.1 (h last)⟩
  eq_none_iff := ⟨fun _ => h, fun _ => rfl⟩
  alone _ _ hfound := absurd hfound.symm (Option.some_ne_none _)

theorem of_isLeast {inner : List Char} {last : Nat} {back : List Step}
    (hleast : IsLeast {place | Reaches b.Evens cs start place} last)
    (hinner : (cs.take last).drop (start + 1) = inner) (hrun : Context.start.run inner = .start)
    (ht : trace .start (cs.drop start) = b.opening :: (trace .start inner ++ b.closing :: back)) :
    Matched b cs start (some (inner, last)) where
  eq_some_iff inner' last' := by
    rw [Option.some.injEq, Prod.mk.injEq]
    constructor
    · rintro ⟨rfl, rfl⟩
      exact ⟨hleast, hinner.symm⟩
    · rintro ⟨hleast', rfl⟩
      obtain rfl := hleast'.unique hleast
      exact ⟨hinner.symm, rfl⟩
  eq_none_iff :=
    ⟨fun hfound => absurd hfound (Option.some_ne_none _), fun hnone => absurd hleast.1 (hnone last)⟩
  alone inner' last' hsame := by
    obtain ⟨rfl, -⟩ := Prod.mk.inj (Option.some.inj hsame)
    exact ⟨hrun, back, ht⟩

end Matched

/-- The bracket that is found is the first one by which the counts come out. -/
theorem enclosed?_matched (b : Bracket) {cs : List Char} {start : Nat} (h : cs[start]? = some b.opener) :
    ∃ found, enclosed? b cs start .start 0 start = .ok found ∧ Matched b cs start found := by
  obtain ⟨front, after, rfl, rfl⟩ := exists_of_getElem? h
  refine ⟨_, enclosed?_eq b front after, ?_⟩
  have hdrop : (front ++ b.opener :: after).drop front.length = b.opener :: after := List.drop_left
  cases hfound : b.enclosed? after with
  | none =>
    obtain ⟨depth, hfold⟩ := Bracket.exists_of_enclosed?_eq_none hfound
    exact .of_not_reaches (b.tells_inside?.not_reaches hfold (by rw [hdrop, trace_opener]; rfl))
  | some r =>
    obtain ⟨inner, rest⟩ := r
    obtain ⟨rfl, hrun, hfold⟩ := Bracket.enclosed?_eq_some_iff.mp hfound
    have hjoins : Joins .start inner (b.closer :: rest) :=
      joins_of_isCode (by rw [hrun]; rfl) (b.apart_closer inner rest)
    have ht : trace .start ((front ++ b.opener :: (inner ++ b.closer :: rest)).drop front.length) =
        [b.opening] ++ (trace .start inner ++ b.closing :: trace .start rest) := by
      rw [hdrop, trace_opener, hjoins, hrun, trace_closer]
      rfl
    have hclosing : b.inside? 0 b.closing = none := by cases b <;> rfl
    have hleast := b.tells_inside?.isLeast hfold ht hclosing
    have hplace : front.length + (spell ([b.opening] ++ trace .start inner)).length =
        front.length + 1 + inner.length := by
      rw [spell_append, spell_trace, List.length_append, Nat.add_assoc]
      rfl
    have hinner : ((front ++ b.opener :: (inner ++ b.closer :: rest)).take
        (front.length + 1 + inner.length)).drop (front.length + 1) = inner := by
      have hbehind : (front ++ b.opener :: (inner ++ b.closer :: rest)).drop (front.length + 1) =
          inner ++ b.closer :: rest := by
        rw [← List.drop_drop, hdrop]
        rfl
      exact drop_take_of_drop hbehind
    exact .of_isLeast (hplace ▸ hleast) hinner hrun ht

/-- A literal and a comment between the two hold closers too. -/
theorem enclosed?_matched_params :
    "f(a = ')', /* ) */ (b)) => a".toList[1]? = some Bracket.paren.opener ∧
      ∃ found, enclosed? .paren "f(a = ')', /* ) */ (b)) => a".toList 1 .start 0 1 = .ok found ∧
        Matched .paren "f(a = ')', /* ) */ (b)) => a".toList 1 found :=
  ⟨by decide, enclosed?_matched .paren (by decide)⟩

/-! ## Expressions -/

/-- An expression ends at the first step that ends one, or at the end of the text if there is none. -/
def IsStop (cs : List Char) (start stop : Nat) : Prop :=
  IsLeast {place | Reaches EndsExpression cs start place} stop ∨
    (∀ place, ¬Reaches EndsExpression cs start place) ∧ stop = cs.length

/-- The text of an expression of which the scan stops at a place. All steps between the two are silent, and
the text does not end in a silent step. It is lexically closed unless the place is the end of an open literal. -/
structure Covers (cs : List Char) (start stop last : Nat) (text : List Char) : Prop where
  text_eq : slice cs start last = .ok text
  start_le : start ≤ last
  le_stop : last ≤ stop
  reads : ∃ back, trace .start (cs.drop start) = trace .start ((cs.take stop).drop start) ++ back
  leaves : ∃ silent, trace .start ((cs.take stop).drop start) = trace .start text ++ silent ∧
    ∀ s ∈ silent, s.isSilent = true
  ends : ∀ s ∈ (trace .start text).getLast?, s.isSilent = false
  closed : (Reaches EndsExpression cs start stop ∨
      (Context.start.run ((cs.take stop).drop start)).isCode = true ∨
      (Context.start.run ((cs.take stop).drop start)).region = .lineComment) →
    Context.start.run text = .start

theorem isCode_of_reaches {cs : List Char} {start stop : Nat} (h : Reaches EndsExpression cs start stop) :
    (Context.start.run ((cs.take stop).drop start)).isCode = true := by
  obtain ⟨front, s, back, ht, rfl, hends⟩ := h
  rw [drop_take_of_drop (joins_of_trace_eq ht).1, ← before_of_trace_eq (trace_eq_append ht).2]
  rcases hends with ⟨b, hclose, -⟩ | ⟨hcomma | hsemi, -⟩
  · exact (Step.isCodeChar_iff.mp hclose).1
  · exact (Step.isCodeChar_iff.mp hcomma).1
  · exact (Step.isCodeChar_iff.mp hsemi).1

section Scan
variable {cs : List Char} {start : Nat} {silent back : List Step} {n : Nesting}

theorem isStop_of_scan
    (ht : trace .start (cs.drop start) = expressionSteps (cs.drop start) ++ silent ++ back)
    (hscan : (expressionSteps (cs.drop start) ++ silent).foldlM Nesting.after? .zero = some n)
    (hstop : ∀ s ∈ back.head?, n.after? s = none) (h : start ≤ cs.length) :
    IsStop cs start (start + (spell (expressionSteps (cs.drop start) ++ silent)).length) := by
  cases back with
  | nil =>
    rw [List.append_nil] at ht
    refine Or.inr ⟨Nesting.tells_after?.not_reaches hscan ht, ?_⟩
    rw [← ht, spell_trace, List.length_drop]
    omega
  | cons s back => exact Or.inl (Nesting.tells_after?.isLeast hscan ht (hstop s rfl))

theorem covers_of_scan
    (ht : trace .start (cs.drop start) = expressionSteps (cs.drop start) ++ silent ++ back)
    (hsilent : ∀ s ∈ silent, s.isSilent = true)
    (hlast : ∀ s ∈ (expressionSteps (cs.drop start)).getLast?, s.isSilent = false) (h : start ≤ cs.length) :
    Covers cs start (start + (spell (expressionSteps (cs.drop start) ++ silent)).length)
      (start + (expression (cs.drop start)).1.length) (expression (cs.drop start)).1 := by
  have hsteps := (trace_eq_append ht).1
  have hstop := drop_take_of_drop (joins_of_trace_eq ht).1
  have htext := drop_take_of_drop (expression_append (cs.drop start)).symm
  have hlength := congrArg List.length (expression_append (cs.drop start))
  rw [List.length_append, List.length_drop] at hlength
  refine ⟨?_, Nat.le_add_right _ _, ?_, ?_, ?_, ?_, ?_⟩
  · rw [slice, if_pos ⟨Nat.le_add_right _ _, by omega⟩, htext]
    rfl
  · rw [spell_append, List.length_append]
    exact Nat.add_le_add_left (Nat.le_add_right _ _) start
  · exact ⟨back, by rw [hstop, hsteps, ht]⟩
  · exact ⟨silent, by rw [hstop, hsteps, trace_expression], hsilent⟩
  · rwa [trace_expression]
  · rw [hstop]
    intro hclosed
    -- If the text were open, what is silent behind it would keep it open up to the stop.
    by_contra hrun
    have hopen : (Context.start.run (expression (cs.drop start)).1).isCode = false := by
      by_contra hcode
      exact hrun (Context.run_eq_start (by simpa using hcode))
    have hkeeps : Context.start.run (spell (expressionSteps (cs.drop start) ++ silent)) =
        Context.start.run (expression (cs.drop start)).1 := by
      rw [spell_append]
      exact (run_silent (by rw [ht, List.append_assoc]) hsilent hopen).2
    rw [hkeeps, hopen] at hclosed
    rcases hclosed with hends | hcode | hcomment
    · have hcode := isCode_of_reaches hends
      rw [hstop, hkeeps, hopen] at hcode
      exact Bool.noConfusion hcode
    · exact Bool.noConfusion hcode
    · exact run_expression_ne_lineComment _ hcomment

end Scan

/-- The scan for the end of an expression stops at the first step that ends one, and leaves out what is
silent before it. -/
theorem expressionEnd_covers {cs : List Char} {start : Nat} (h : start ≤ cs.length) :
    ∃ stop last text, IsStop cs start stop ∧ expressionEnd cs .start .zero start start = .ok last ∧
      expression (cs.drop start) = (text, cs.drop last) ∧ Covers cs start stop last text := by
  obtain ⟨silent, back, n, ht, hsilent, hlast, hscan, hstop⟩ := expressionSteps_scan (cs.drop start)
  rw [← List.append_assoc] at ht
  have hend := expressionEnd_eq (cs.take start) (cs.drop start)
  rw [List.take_append_drop, List.length_take_of_le h] at hend
  refine ⟨_, _, _, isStop_of_scan ht hscan hstop h, hend, ?_, covers_of_scan ht hsilent hlast h⟩
  rw [← List.drop_drop]
  rfl

/-- A comment behind the body of a method is not part of it. -/
theorem expressionEnd_covers_method :
    5 ≤ "f => g(a, b) // sum\n, h".toList.length ∧
      ∃ stop last text, IsStop "f => g(a, b) // sum\n, h".toList 5 stop ∧
        expressionEnd "f => g(a, b) // sum\n, h".toList .start .zero 5 5 = .ok last ∧
        expression ("f => g(a, b) // sum\n, h".toList.drop 5) =
          (text, "f => g(a, b) // sum\n, h".toList.drop last) ∧
        Covers "f => g(a, b) // sum\n, h".toList 5 stop last text :=
  ⟨by decide, expressionEnd_covers (by decide)⟩

end Florin.Cursor
