import Florin.Proofs.Lexical.Extent
import Florin.Proofs.Lexical.Regions

/-! # Balanced texts

The two scans that count brackets keep their counts over a balanced text, at any depth: the one that
looks for the closer of one bracket, and the one that looks for the end of an expression. Outside of
all brackets the second one also stops at commas and semicolons. A balanced text is thus read as an
expression if it ends neither in a blank nor in a comment.
-/
namespace Florin.Lexical
open Text

theorem dropWhileEnd_append {p : α → Bool} {xs ys : List α} (hy : ∀ y ∈ ys, p y = true)
    (hx : ∀ x ∈ xs.getLast?, p x = false) : dropWhileEnd p (xs ++ ys) = xs := by
  have hfront : xs.reverse.dropWhile p = xs.reverse := by
    rw [← List.head?_reverse] at hx
    cases h : xs.reverse with
    | nil => rfl
    | cons x rest => exact List.dropWhile_cons_of_neg (by simp [hx x (by rw [h]; rfl)])
  rw [dropWhileEnd, List.reverse_append,
    List.dropWhile_append_of_pos fun y hm => hy y (List.mem_reverse.mp hm), hfront, List.reverse_reverse]

/-- None of the characters stands in code. -/
def Lacks (chars cs : List Char) : Prop :=
  ∀ s ∈ trace .start cs, ∀ c ∈ chars, s.isCodeChar c = false

instance (chars cs : List Char) : Decidable (Lacks chars cs) :=
  inferInstanceAs (Decidable (∀ s ∈ trace .start cs, ∀ c ∈ chars, s.isCodeChar c = false))

theorem lacks_of_not_mem {chars cs : List Char} (h : ∀ c ∈ chars, c ∉ cs) : Lacks chars cs := by
  intro s hs c hc
  by_contra hcode
  simp only [Step.isCodeChar, Bool.not_eq_false, Bool.and_eq_true, decide_eq_true_eq] at hcode
  have hmem : c ∈ spell (trace .start cs) :=
    List.mem_flatMap.mpr ⟨s, hs, List.mem_of_mem_head? hcode.2⟩
  rw [spell_trace] at hmem
  exact h c hc hmem

namespace Bracket

def all : List Char := ['(', ')', '[', ']', '{', '}']

theorem opener_mem (b : Bracket) : b.opener ∈ all := by cases b <;> decide

theorem closer_mem (b : Bracket) : b.closer ∈ all := by cases b <;> decide

/-- The text in its brackets. -/
def around (b : Bracket) (cs : List Char) : List Char := b.opener :: (cs ++ [b.closer])

def opening (b : Bracket) : Step := ⟨.start, [b.opener], .start⟩

def closing (b : Bracket) : Step := ⟨.start, [b.closer], .start⟩

end Bracket

/-- The text ends in code, and the scan has the same state before and after it. -/
def Keeps (next : σ → Step → Option σ) (state : σ) (cs : List Char) : Prop :=
  Context.start.run cs = .start ∧ (trace .start cs).foldlM next state = some state

/-- A scan that counts brackets: between them its state stays the same, and a closer undoes its
opener. Only where the state is deep, inside of brackets, it passes commas and semicolons. -/
structure Balancing (next : σ → Step → Option σ) (deep : σ → Prop) : Prop where
  still : ∀ state s, (∀ c ∈ Bracket.all, s.isCodeChar c = false) →
    (deep state ∨ ∀ c ∈ [',', ';'], s.isCodeChar c = false) → next state s = some state
  pair : ∀ state (b : Bracket), ∃ inner, deep inner ∧ next state b.opening = some inner ∧
    next inner b.closing = some state

section Keeping
variable {next : σ → Step → Option σ} {deep : σ → Prop} {state : σ} {xs ys : List Char}

theorem foldlM_eq_self {steps : List Step} (h : ∀ s ∈ steps, next state s = some state) :
    steps.foldlM next state = some state := by
  induction steps with
  | nil => rfl
  | cons s steps ih =>
    rw [List.foldlM_cons, h s List.mem_cons_self]
    exact ih fun s hs => h s (List.mem_cons_of_mem _ hs)

theorem Keeps.joins (hx : Keeps next state xs) (ha : Apart xs ys) : Joins .start xs ys :=
  joins_of_isCode (by rw [hx.1]; rfl) ha

theorem Keeps.append (hx : Keeps next state xs) (hy : Keeps next state ys) (ha : Apart xs ys) :
    Keeps next state (xs ++ ys) := by
  have hj := hx.joins ha
  refine ⟨by rw [hj.run, hx.1, hy.1], ?_⟩
  rw [hj, List.foldlM_append, hx.2, hx.1]
  exact hy.2

namespace Balancing

theorem keeps_of_lacks (hb : Balancing next deep) (hrun : Context.start.run xs = .start)
    (hbrackets : Lacks Bracket.all xs) (hstate : deep state ∨ Lacks [',', ';'] xs) :
    Keeps next state xs := by
  refine ⟨hrun, foldlM_eq_self fun s hs => ?_⟩
  exact hb.still state s (hbrackets s hs) (hstate.imp_right fun h => h s hs)

theorem keeps_around (hb : Balancing next deep) (state : σ) (b : Bracket)
    (h : ∀ inner, deep inner → Keeps next inner xs) : Keeps next state (b.around xs) := by
  obtain ⟨inner, hdeep, hopen, hclose⟩ := hb.pair state b
  obtain ⟨hrun, hfold⟩ := h inner hdeep
  have hj : Joins .start xs [b.closer] :=
    joins_of_isCode (by rw [hrun]; rfl) (b.apart_closer _ _)
  have hcloser : Quiet [b.closer] := Quiet.cons b.isQuiet_closer quiet_nil
  constructor
  · rw [Bracket.around, Context.run_cons_of_isQuiet b.isQuiet_opener, hj.run, hrun, hcloser.run]
  · rw [Bracket.around, trace_cons_of_isQuiet b.isQuiet_opener, hj, hrun, hcloser.trace,
      List.foldlM_cons]
    change (next state b.opening).bind _ = _
    rw [hopen, Option.bind_some, List.foldlM_append, hfold]
    exact Option.bind_eq_some_iff.mpr ⟨inner, rfl, Option.bind_eq_some_iff.mpr ⟨state, hclose, rfl⟩⟩

end Balancing

end Keeping

theorem Bracket.closed_iff_keeps {b : Bracket} {cs : List Char} :
    b.Closed cs ↔ Keeps b.inside? 0 cs := Iff.rfl

theorem Bracket.around_append (b : Bracket) (front cs after : List Char) :
    front ++ (b.around cs ++ after) = (front ++ b.opener :: cs) ++ b.closer :: after := by
  simp [around]

theorem Bracket.apart_around (b : Bracket) (xs ys : List Char) : Apart (b.around xs) ys :=
  apart_concat (by cases b <;> decide) (b.opener :: xs) ys

/-- At any depth, what lies inside of one kind of brackets is balanced. -/
theorem Bracket.balancing (b : Bracket) : Balancing b.inside? fun _ => True where
  still depth s h _ := by
    simp [inside?, depthAfter, h _ b.opener_mem, h _ b.closer_mem]
  pair depth b' := by
    by_cases hb : b' = b
    · subst hb
      refine ⟨depth + 1, trivial, ?_, ?_⟩ <;> cases b' <;>
        simp [inside?, depthAfter, Step.isCodeChar, opening, closing, opener, closer, Context.isCode,
          Context.start]
    · refine ⟨depth, trivial, ?_, ?_⟩ <;> cases b' <;> cases b <;>
        simp_all [inside?, depthAfter, Step.isCodeChar, opening, closing, opener, closer]

theorem Bracket.eq_none_of_isCodeChar {s : Step} {c : Char} (hcode : s.before.isCode = true)
    (hc : s.text.head? = some c) (h : ∀ c ∈ all, s.isCodeChar c = false) :
    ofOpener? c = none ∧ ofCloser? c = none := by
  have hne (d : Char) (hd : d ∈ all) : d ≠ c := by
    rintro rfl
    have hfalse := h d hd
    simp [Step.isCodeChar, hcode, hc] at hfalse
  exact ⟨List.find?_eq_none.mpr fun b _ => by simpa using hne _ b.opener_mem,
    List.find?_eq_none.mpr fun b _ => by simpa using hne _ b.closer_mem⟩

namespace Nesting

theorem after?_of_isCodeChar {n : Nesting} {s : Step} (h : ∀ c ∈ Bracket.all, s.isCodeChar c = false)
    (hn : n ≠ .zero ∨ ∀ c ∈ [',', ';'], s.isCodeChar c = false) : n.after? s = some n := by
  unfold after?
  split
  · rename_i hcode
    split
    · rfl
    · rename_i c hc
      obtain ⟨hopener, hcloser⟩ := Bracket.eq_none_of_isCodeChar hcode hc h
      have hne (d : Char) : s.isCodeChar d = false → c ≠ d := by
        rintro hd rfl
        simp [Step.isCodeChar, hcode, hc] at hd
      have hsep : ¬(((c = ',' || c = ';') && decide (n = .zero)) = true) := by
        rcases hn with hn | hn
        · simp [hn]
        · simp [hne ',' (hn ',' (by simp)), hne ';' (hn ';' (by simp))]
      simp only [hopener, hcloser, if_neg hsep]
  · rfl

theorem balancing : Balancing Nesting.after? (· ≠ .zero) where
  still _ _ h hn := after?_of_isCodeChar h hn
  pair n b := by
    refine ⟨n.put b (n.count b + 1), ?_, ?_, ?_⟩
    · obtain ⟨paren, square, curly⟩ := n
      cases b <;> simp [put, count, zero]
    · simp [after?, Bracket.opening, Context.isCode, Context.start, Bracket.ofOpener?_opener]
    · have hopener : Bracket.ofOpener? b.closer = none := by cases b <;> decide
      obtain ⟨paren, square, curly⟩ := n
      cases b <;> simp [after?, Bracket.closing, Context.isCode, Context.start, hopener,
        Bracket.ofCloser?_closer, put, count]

end Nesting

/-! ## Balanced expressions -/

/-- The only pair that leads into code is the end of a comment. -/
theorem Context.Change.eq_slash_of_code {k k' : Context} {c d : Char} (h : Change k c (some d) true k')
    (hk : k'.region = .code) : d = '/' := by
  cases h with
  | escape hquote =>
    rw [hk] at hquote
    cases hquote
  | openLineComment | openBlockComment | openInterpolation => cases hk
  | closeBlockComment _ _ hnext => exact Option.some.inj hnext

theorem Context.eq_slash_of_wide {k : Context} {c d : Char} (hw : (k.step c (some d)).2 = true)
    (hcode : (k.step c (some d)).1.isCode = true) : d = '/' := by
  have hregion : (k.step c (some d)).1.region = .code := of_decide_eq_true hcode
  exact (step_change_wide hw).eq_slash_of_code hregion

/-- Blanks and line comments with their line breaks. -/
def IsGap (cs : List Char) : Prop :=
  Context.start.run cs = .start ∧ ∀ s ∈ trace .start cs, s.isSilent = true

instance (cs : List Char) : Decidable (IsGap cs) :=
  inferInstanceAs (Decidable (Context.start.run cs = .start ∧ ∀ s ∈ trace .start cs, s.isSilent = true))

theorem isGap_nil : IsGap [] := ⟨rfl, by simp [trace]⟩

theorem Step.isCodeChar_of_isSilent {k : Context} {cs : List Char} {s : Step} (hs : s ∈ trace k cs)
    (hsilent : s.isSilent = true) {c : Char} (hblank : isBlank c = false) (hslash : c ≠ '/') :
    s.isCodeChar c = false :=
  isCodeChar_of_isVoid hs (isVoid_of_isSilent hsilent) hblank hslash

theorem IsGap.isCodeChar {cs : List Char} (h : IsGap cs) {s : Step} (hs : s ∈ trace .start cs)
    {c : Char} (hblank : isBlank c = false) (hslash : c ≠ '/') : s.isCodeChar c = false :=
  s.isCodeChar_of_isSilent hs (h.2 s hs) hblank hslash

theorem IsGap.head {cs : List Char} (h : IsGap cs) : ∀ c ∈ cs.head?, isBlank c = true ∨ c = '/' := by
  intro c hc
  obtain ⟨cs, rfl⟩ := List.head?_eq_some_iff.mp hc
  obtain ⟨more, steps, ht⟩ := exists_trace_cons .start c cs
  by_contra hne
  simp only [not_or, Bool.not_eq_true] at hne
  have hcode := h.isCodeChar (ht ▸ List.mem_cons_self) hne.1 hne.2
  simp [Step.isCodeChar, Context.isCode, Context.start] at hcode

theorem IsGap.keeps {cs : List Char} (h : IsGap cs) (n : Nesting) : Keeps Nesting.after? n cs := by
  have hchars (chars : List Char) (hc : ∀ c ∈ chars, isBlank c = false ∧ c ≠ '/') : Lacks chars cs :=
    fun s hs c hm => h.isCodeChar hs (hc c hm).1 (hc c hm).2
  exact Nesting.balancing.keeps_of_lacks h.1 (hchars _ (by decide)) (Or.inr (hchars _ (by decide)))

theorem isSilent_getLast {cs : List Char} (hrun : Context.start.run cs = .start)
    (hlast : cs.getLast?.any (fun c => !isBlank c) = true) :
    ∀ s ∈ (trace .start cs).getLast?, s.isSilent = false := by
  intro s hs
  obtain ⟨front, ht⟩ := List.getLast?_eq_some_iff.mp hs
  obtain ⟨c, more, next, htext, hafter, hnarrow⟩ :=
    exists_of_mem_trace (List.mem_of_getLast? hs)
  have hend : s.after = .start := (run_of_trace_concat ht).symm.trans hrun
  have hcs : cs = spell front ++ s.text := by
    rw [← spell_trace .start cs, ht, spell_append]
    simp
  have hblank : s.text.all isBlank = false := by
    by_contra hall
    rw [hcs, List.getLast?_append_of_ne_nil _ (by simp [htext])] at hlast
    obtain ⟨d, hd, hdblank⟩ := (Option.any_eq_true _ _).mp hlast
    have hdall := List.all_eq_true.mp (by simpa using hall) d (List.mem_of_getLast? hd)
    simp [hdall] at hdblank
  have hbefore : s.before.region ≠ .lineComment := by
    intro hregion
    have hstep : s.before.step c next = (if c = '\n' then (s.before.leave, false) else (s.before, false)) := by
      simp [Context.step, hregion]
    by_cases hc : c = '\n'
    · rw [if_pos hc] at hstep
      rw [htext, hnarrow (by rw [hstep]), hc] at hblank
      exact absurd hblank (by decide)
    · rw [hstep, if_neg hc] at hafter
      rw [← show s.after = s.before from hafter, hend] at hregion
      exact absurd hregion (by decide)
  simp [Step.isSilent, hend, Context.start, hbefore, hblank]

theorem getLast_ne_semicolon {cs : List Char} (hrun : Context.start.run cs = .start)
    (hl : Lacks [',', ';'] cs) : ∀ c ∈ cs.getLast?, c ≠ ';' := by
  rintro c hc rfl
  obtain ⟨front, rfl⟩ := List.getLast?_eq_some_iff.mp hc
  have hidle : ∀ c ∈ [';'], isIdle c = true := by decide
  rw [Context.run_append_idle _ _ hidle] at hrun
  have hstay {k : Context} (hk : k.region = .lineComment) : k.run [';'] = k := by
    simp [Context.run, trace, Context.step, hk]
  have hline : (Context.start.run front).region ≠ .lineComment := by
    intro hregion
    rw [← hstay hregion, hrun] at hregion
    exact absurd hregion (by decide)
  rw [Context.run_idle hline hidle] at hrun
  have hj : Joins .start front [';'] := joins_of_isCode (by rw [hrun]; rfl) (apart_cons (by decide) _ _)
  have hstep : ⟨.start, [';'], .start⟩ ∈ trace .start (front ++ [';']) := by
    rw [hj, hrun]
    exact List.mem_append_right _ (List.mem_singleton.mpr rfl)
  exact absurd (hl _ hstep ';' (by simp)) (by decide)

/-- What ends an expression outside of its brackets. -/
def stops : List Char := [')', ']', '}', ',', ';']

/-- The text is empty or starts with a character that ends an expression. -/
def Stops (cs : List Char) : Prop := ∀ c ∈ cs.head?, c ∈ stops

theorem stops_nil : Stops [] := by simp [Stops]

theorem Stops.after? {cs : List Char} (h : Stops cs) :
    splitAtStop Nesting.after? .zero (trace .start cs) = ([], trace .start cs) := by
  cases cs with
  | nil => rfl
  | cons c cs =>
    have hc : c ∈ stops := h c rfl
    have hquiet : isQuiet c = true := (by decide : ∀ c ∈ stops, isQuiet c = true) c hc
    have hstop : Nesting.zero.after? ⟨.start, [c], .start⟩ = none :=
      (by decide : ∀ c ∈ stops, Nesting.zero.after? ⟨.start, [c], .start⟩ = none) c hc
    rw [trace_cons_of_isQuiet hquiet, splitAtStop, hstop]

theorem Stops.apart {ys : List Char} (h : Stops ys) (xs : List Char) : Apart xs ys := by
  cases ys with
  | nil => exact fun c d _ hd => by simp at hd
  | cons c ys =>
    have hc : c ∈ stops := h c rfl
    exact apart_cons ((by decide : ∀ c ∈ stops, c ≠ '/' ∧ c ≠ '*') c hc) xs ys

/-- A balanced text is the expression at its place if only a gap lies between it and its end. -/
theorem expression_of_keeps {cs gap after : List Char} (h : Keeps Nesting.after? .zero cs)
    (hlast : cs.getLast?.any (fun c => !isBlank c) = true) (hgap : IsGap gap) (hafter : Stops after)
    (ha : Apart cs (gap ++ after)) :
    expression (cs ++ (gap ++ after)) = (cs, gap ++ after) := by
  have hj : Joins .start cs (gap ++ after) := joins_of_isCode (by rw [h.1]; rfl) ha
  have hjgap : Joins .start gap after := joins_of_isCode (by rw [hgap.1]; rfl) (hafter.apart gap)
  have htrace : trace .start (cs ++ (gap ++ after)) =
      trace .start cs ++ (trace .start gap ++ trace .start after) := by
    rw [hj, h.1, hjgap, hgap.1]
  have hsplit : splitAtStop Nesting.after? .zero (trace .start (cs ++ (gap ++ after))) =
      (trace .start cs ++ trace .start gap, trace .start after) := by
    rw [htrace, splitAtStop_append h.2, splitAtStop_append (hgap.keeps _).2, hafter.after?]
    simp
  have hsteps : expressionSteps (cs ++ (gap ++ after)) = trace .start cs := by
    rw [expressionSteps, stepsWhile_eq, hsplit]
    exact dropWhileEnd_append hgap.2 (isSilent_getLast h.1 hlast)
  have he := expression_eq (cs ++ (gap ++ after)) (by rw [hsteps]; exact htrace)
  rw [he, hsteps, spell_append, spell_trace, spell_trace, spell_trace]

end Florin.Lexical
