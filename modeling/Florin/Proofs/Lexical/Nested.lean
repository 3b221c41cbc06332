import Florin.Proofs.Lexical.Balance

/-! # Nested brackets

The brackets in code are nested if each closer fits the innermost bracket that is open, whichever its
kind. The scans for the closer of a bracket and for the end of an expression only count: each kind for
itself. In a nested text the counts tell the same as the stack of open brackets, so an opened bracket
is closed, and what it encloses is nested, and so is an expression.
-/
namespace Florin.Lexical
open Text

/-! ## What a step does to the brackets -/

theorem Step.isCodeChar_iff {s : Step} {c : Char} :
    s.isCodeChar c = true ↔ s.before.isCode = true ∧ s.text.head? = some c := by
  simp [isCodeChar]

/-- A step opens a bracket, closes one, or has nothing to do with brackets. -/
theorem Step.bracket_cases (s : Step) : (∃ b : Bracket, s.isCodeChar b.opener = true) ∨
    (∃ b : Bracket, s.isCodeChar b.closer = true) ∨ ∀ c ∈ Bracket.all, s.isCodeChar c = false := by
  by_cases h : ∀ c ∈ Bracket.all, s.isCodeChar c = false
  · exact Or.inr (Or.inr h)
  · push Not at h
    obtain ⟨c, hc, hcode⟩ := h
    have hcode : s.isCodeChar c = true := by simpa using hcode
    simp only [Bracket.all, List.mem_cons, List.not_mem_nil, or_false] at hc
    rcases hc with rfl | rfl | rfl | rfl | rfl | rfl
    · exact Or.inl ⟨.paren, hcode⟩
    · exact Or.inr (Or.inl ⟨.paren, hcode⟩)
    · exact Or.inl ⟨.square, hcode⟩
    · exact Or.inr (Or.inl ⟨.square, hcode⟩)
    · exact Or.inl ⟨.curly, hcode⟩
    · exact Or.inr (Or.inl ⟨.curly, hcode⟩)

theorem Bracket.ofOpener?_closer (b : Bracket) : ofOpener? b.closer = none := by cases b <;> decide

/-- The open brackets after a step, the innermost first. A closer has to fit the innermost one. -/
def openAfter? (stack : List Bracket) (s : Step) : Option (List Bracket) :=
  if s.before.isCode then
    match s.text.head? with
    | none => some stack
    | some c =>
      match Bracket.ofOpener? c, Bracket.ofCloser? c with
      | some b, _ => some (b :: stack)
      | none, some b => if stack.head? = some b then some stack.tail else none
      | none, none => some stack
  else some stack

section Steps
variable {s : Step} {b : Bracket}

theorem openAfter?_opener (h : s.isCodeChar b.opener = true) (stack : List Bracket) :
    openAfter? stack s = some (b :: stack) := by
  obtain ⟨hcode, hc⟩ := Step.isCodeChar_iff.mp h
  simp [openAfter?, hcode, hc, Bracket.ofOpener?_opener]

theorem openAfter?_closer (h : s.isCodeChar b.closer = true) (stack : List Bracket) :
    openAfter? stack s = if stack.head? = some b then some stack.tail else none := by
  obtain ⟨hcode, hc⟩ := Step.isCodeChar_iff.mp h
  simp [openAfter?, hcode, hc, Bracket.ofOpener?_closer, Bracket.ofCloser?_closer]

theorem openAfter?_of_free (h : ∀ c ∈ Bracket.all, s.isCodeChar c = false) (stack : List Bracket) :
    openAfter? stack s = some stack := by
  unfold openAfter?
  split
  · rename_i hcode
    split
    · rfl
    · rename_i c hc
      obtain ⟨hopener, hcloser⟩ := Bracket.eq_none_of_isCodeChar hcode hc h
      simp only [hopener, hcloser]
  · rfl

theorem eq_cons_of_openAfter? (h : s.isCodeChar b.closer = true) {stack stack' : List Bracket}
    (ho : openAfter? stack s = some stack') : stack = b :: stack' := by
  rw [openAfter?_closer h, Option.ite_none_right_eq_some] at ho
  obtain ⟨hhead, htail⟩ := ho
  obtain ⟨rest, rfl⟩ := List.head?_eq_some_iff.mp hhead
  rw [← Option.some.inj htail]
  rfl

theorem openAfter?_append {stack stack' : List Bracket} (ho : openAfter? stack s = some stack')
    (base : List Bracket) : openAfter? (stack ++ base) s = some (stack' ++ base) := by
  rcases s.bracket_cases with ⟨b, hb⟩ | ⟨b, hb⟩ | hfree
  · rw [openAfter?_opener hb] at ho ⊢
    obtain rfl := Option.some.inj ho
    rfl
  · obtain rfl := eq_cons_of_openAfter? hb ho
    rw [openAfter?_closer hb]
    simp
  · rw [openAfter?_of_free hfree] at ho ⊢
    obtain rfl := Option.some.inj ho
    rfl

theorem foldlM_openAfter?_append {steps : List Step} {stack stack' : List Bracket}
    (h : steps.foldlM openAfter? stack = some stack') (base : List Bracket) :
    steps.foldlM openAfter? (stack ++ base) = some (stack' ++ base) := by
  induction steps generalizing stack with
  | nil =>
    obtain rfl := Option.some.inj h
    rfl
  | cons s steps ih =>
    obtain ⟨mid, hs, hrest⟩ := Option.bind_eq_some_iff.mp h
    rw [List.foldlM_cons, openAfter?_append hs]
    exact ih hrest

end Steps

theorem openAfter?_opening (b : Bracket) (stack : List Bracket) :
    openAfter? stack b.opening = some (b :: stack) :=
  openAfter?_opener (Step.isCodeChar_iff.mpr ⟨rfl, rfl⟩) stack

theorem openAfter?_closing (b : Bracket) (stack : List Bracket) :
    openAfter? (b :: stack) b.closing = some stack := by
  rw [openAfter?_closer (Step.isCodeChar_iff.mpr ⟨rfl, rfl⟩)]
  simp

/-- The stack of open brackets is a scan that counts brackets. -/
theorem balancing_openAfter? : Balancing openAfter? fun _ => True where
  still stack _ h _ := openAfter?_of_free h stack
  pair stack b := ⟨b :: stack, trivial, openAfter?_opening b stack, openAfter?_closing b stack⟩

/-! ## Counts and the stack -/

/-- A scan keeps count of the brackets that are open above a base, and does not go below it. -/
structure Counts (next : σ → Step → Option σ) (agrees : σ → List Bracket → Prop)
    (base : List Bracket) : Prop where
  opener : ∀ {state above s state'} {b : Bracket}, agrees state above →
    s.isCodeChar b.opener = true → next state s = some state' → agrees state' (b :: above)
  closer : ∀ {state above s state'} {b : Bracket}, agrees state (b :: above) →
    s.isCodeChar b.closer = true → next state s = some state' → agrees state' above
  floor : ∀ {state s state'} {b : Bracket}, agrees state [] →
    s.isCodeChar b.closer = true → next state s = some state' → base.head? ≠ some b
  free : ∀ {state above s state'}, agrees state above → (∀ c ∈ Bracket.all, s.isCodeChar c = false) →
    next state s = some state' → agrees state' above

namespace Counts
variable {next : σ → Step → Option σ} {agrees : σ → List Bracket → Prop} {base stack : List Bracket}

theorem step (h : Counts next agrees base) {state state' : σ} {above : List Bracket} {s : Step}
    (ha : agrees state above) (hn : next state s = some state')
    (ho : openAfter? (above ++ base) s = some stack) :
    ∃ above', openAfter? above s = some above' ∧ stack = above' ++ base ∧ agrees state' above' := by
  rcases s.bracket_cases with ⟨b, hb⟩ | ⟨b, hb⟩ | hfree
  · rw [openAfter?_opener hb] at ho
    obtain rfl := Option.some.inj ho
    exact ⟨b :: above, openAfter?_opener hb above, rfl, h.opener ha hb hn⟩
  · have hcons := eq_cons_of_openAfter? hb ho
    cases above with
    | nil => exact absurd (by rw [show base = b :: stack from hcons]; rfl) (h.floor ha hb hn)
    | cons b' above =>
      obtain ⟨rfl, rfl⟩ := List.cons.inj hcons
      exact ⟨above, by rw [openAfter?_closer hb]; simp, rfl, h.closer ha hb hn⟩
  · rw [openAfter?_of_free hfree] at ho
    obtain rfl := Option.some.inj ho
    exact ⟨above, openAfter?_of_free hfree above, rfl, h.free ha hfree hn⟩

/-- Along a run the stack stays above its base, and the count agrees with what is above it. -/
theorem run (h : Counts next agrees base) {state state' : σ} (above : List Bracket)
    {steps : List Step} (ha : agrees state above) (hn : steps.foldlM next state = some state')
    (ho : steps.foldlM openAfter? (above ++ base) = some stack) :
    ∃ above', steps.foldlM openAfter? above = some above' ∧ stack = above' ++ base ∧
      agrees state' above' := by
  induction steps generalizing state above with
  | nil =>
    obtain rfl := Option.some.inj hn
    obtain rfl := Option.some.inj ho
    exact ⟨above, rfl, rfl, ha⟩
  | cons s steps ih =>
    obtain ⟨mid, hs, hrest⟩ := Option.bind_eq_some_iff.mp hn
    obtain ⟨stack', hs', hrest'⟩ := Option.bind_eq_some_iff.mp ho
    obtain ⟨above', ha', rfl, hagrees⟩ := h.step ha hs hs'
    obtain ⟨above'', hfold, hstack, hend⟩ := ih above' hagrees hrest hrest'
    refine ⟨above'', ?_, hstack, hend⟩
    rw [List.foldlM_cons, ha']
    exact hfold

end Counts

theorem Step.isCodeChar_eq {s : Step} {c : Char} (h : s.isCodeChar c = true) (d : Char) :
    s.isCodeChar d = decide (d = c) := by
  obtain ⟨hcode, hc⟩ := Step.isCodeChar_iff.mp h
  simp [isCodeChar, hcode, hc, eq_comm]

namespace Bracket

theorem opener_inj {b b' : Bracket} : b.opener = b'.opener ↔ b = b' := by
  cases b <;> cases b' <;> decide

theorem closer_inj {b b' : Bracket} : b.closer = b'.closer ↔ b = b' := by
  cases b <;> cases b' <;> decide

theorem opener_ne_closer (b b' : Bracket) : b.opener ≠ b'.closer := by
  cases b <;> cases b' <;> decide

/-- The scan for the closer of a bracket counts the open brackets of its kind. -/
theorem counts_inside? (b : Bracket) (stack : List Bracket) :
    Counts b.inside? (fun depth above => above.count b = depth) (b :: stack) where
  opener := by
    rintro depth above s depth' b' rfl hb' hn
    simp only [inside?, depthAfter, s.isCodeChar_eq hb', opener_inj, (opener_ne_closer b' b).symm,
      decide_false, Bool.false_and, Bool.false_eq_true, if_false, decide_eq_true_eq,
      Option.some.injEq] at hn
    rw [← hn, List.count_cons]
    by_cases h : b = b'
    · simp [h]
    · simp [h, Ne.symm h]
  closer := by
    rintro depth above s depth' b' rfl hb' hn
    by_cases h : b = b'
    · subst h
      simp_all [inside?, depthAfter, s.isCodeChar_eq hb', opener_ne_closer]
    · simp_all [inside?, depthAfter, s.isCodeChar_eq hb', opener_ne_closer, closer_inj, Ne.symm h]
  floor := by
    rintro depth s depth' b' rfl hb' hn hhead
    obtain rfl : b = b' := Option.some.inj hhead
    simp [inside?, hb'] at hn
  free := by
    rintro depth above s depth' rfl hfree hn
    simp only [inside?, depthAfter, hfree _ b.opener_mem, hfree _ b.closer_mem] at hn
    simpa using hn

end Bracket

namespace Nesting

theorem after?_opener {s : Step} {b : Bracket} (h : s.isCodeChar b.opener = true) (n : Nesting) :
    n.after? s = some (n.put b (n.count b + 1)) := by
  obtain ⟨hcode, hc⟩ := Step.isCodeChar_iff.mp h
  simp [after?, hcode, hc, Bracket.ofOpener?_opener]

theorem after?_closer {s : Step} {b : Bracket} (h : s.isCodeChar b.closer = true) (n : Nesting) :
    n.after? s = if n.count b = 0 then none else some (n.put b (n.count b - 1)) := by
  obtain ⟨hcode, hc⟩ := Step.isCodeChar_iff.mp h
  simp [after?, hcode, hc, Bracket.ofOpener?_closer, Bracket.ofCloser?_closer]

theorem eq_of_after?_of_free {s : Step} (h : ∀ c ∈ Bracket.all, s.isCodeChar c = false)
    {n n' : Nesting} (hn : n.after? s = some n') : n' = n := by
  unfold after? at hn
  split at hn
  · rename_i hcode
    split at hn
    · exact (Option.some.inj hn).symm
    · rename_i c hc
      obtain ⟨hopener, hcloser⟩ := Bracket.eq_none_of_isCodeChar hcode hc h
      simp only [hopener, hcloser, Option.ite_none_left_eq_some] at hn
      exact (Option.some.inj hn.2).symm
  · exact (Option.some.inj hn).symm

/-- An expression stops at a closer without its opener, or outside of all brackets. -/
theorem stop_cases {n : Nesting} {s : Step} (h : n.after? s = none) :
    (∃ b : Bracket, s.isCodeChar b.closer = true ∧ n.count b = 0) ∨ n = .zero := by
  rcases s.bracket_cases with ⟨b, hb⟩ | ⟨b, hb⟩ | hfree
  · simp [after?_opener hb] at h
  · refine Or.inl ⟨b, hb, ?_⟩
    by_contra hcount
    simp [after?_closer hb, hcount] at h
  · by_contra hn
    rw [not_or] at hn
    simp [after?_of_isCodeChar hfree (Or.inl hn.2)] at h

/-- The scan for the end of an expression counts the open brackets of each kind. -/
theorem counts_after? (base : List Bracket) :
    Counts after? (fun n above => ∀ b, n.count b = above.count b) base where
  opener := by
    intro n above s n' b ha hb hn b'
    rw [after?_opener hb, Option.some.injEq] at hn
    rw [← hn, count_put, List.count_cons, ha, ha]
    by_cases h : b' = b
    · simp [h]
    · simp [h, Ne.symm h]
  closer := by
    intro n above s n' b ha hb hn b'
    rw [after?_closer hb, Option.ite_none_left_eq_some, Option.some.injEq] at hn
    rw [← hn.2, count_put, ha, ha]
    by_cases h : b' = b
    · simp [h]
    · simp [h, Ne.symm h]
  floor := by
    intro n s n' b ha hb hn
    simp [after?_closer hb, ha] at hn
  free := by
    intro n above s n' ha hfree hn
    rw [eq_of_after?_of_free hfree hn]
    exact ha

theorem eq_zero_of_count {n : Nesting} (h : ∀ b, n.count b = 0) : n = .zero := by
  obtain ⟨paren, square, curly⟩ := n
  obtain rfl : paren = 0 := h .paren
  obtain rfl : square = 0 := h .square
  obtain rfl : curly = 0 := h .curly
  rfl

theorem count_zero (b : Bracket) : zero.count b = 0 := by cases b <;> rfl

end Nesting

/-- Where the stack of open brackets ends empty, no bracket is counted as open. -/
theorem Nesting.eq_zero_of_nested {steps : List Step} {n : Nesting} {stack : List Bracket}
    (hn : steps.foldlM Nesting.after? .zero = some n) (ho : steps.foldlM openAfter? stack = some []) :
    n = .zero := by
  obtain ⟨above, -, habove, hcount⟩ :=
    (Nesting.counts_after? stack).run [] Nesting.count_zero hn ho
  obtain ⟨rfl, -⟩ := List.append_eq_nil_iff.mp habove.symm
  exact Nesting.eq_zero_of_count fun b => hcount b

/-- Where an expression stops, all brackets that opened in it are closed, if the text closes them. -/
theorem Nesting.eq_nil_of_stop {n : Nesting} {above base : List Bracket} {back : List Step}
    (hcount : ∀ b, n.count b = above.count b) (hstop : ∀ s ∈ back.head?, n.after? s = none)
    (hback : back.foldlM openAfter? (above ++ base) = some []) : above = [] := by
  cases above with
  | nil => rfl
  | cons b' above =>
    have hpos : n.count b' ≠ 0 := by simp [hcount]
    cases back with
    | nil => simp [pure] at hback
    | cons s back =>
      rcases Nesting.stop_cases (hstop s rfl) with ⟨b, hb, hzero⟩ | rfl
      · obtain ⟨stack, hs, -⟩ := Option.bind_eq_some_iff.mp hback
        obtain rfl : b' = b := (List.cons.inj (eq_cons_of_openAfter? hb hs)).1
        exact absurd hzero hpos
      · exact absurd (Nesting.count_zero b') hpos

/-- An expression goes on behind a semicolon inside of brackets only. -/
theorem Nesting.after?_semicolon {s : Step} (h : s.isCodeChar ';' = true) {n n' : Nesting}
    (hn : n.after? s = some n') : n' = n ∧ n ≠ .zero := by
  obtain ⟨hcode, hc⟩ := Step.isCodeChar_iff.mp h
  have hopener : Bracket.ofOpener? ';' = none := by decide
  have hcloser : Bracket.ofCloser? ';' = none := by decide
  simp only [after?, hcode, hc, hopener, hcloser, if_true, decide_true, Bool.or_true, Bool.true_and,
    decide_eq_true_eq, Option.ite_none_left_eq_some, Option.some.injEq] at hn
  exact ⟨hn.2.symm, hn.1⟩

/-! ## Texts that close what is open -/

/-- The text ends in code and closes the open brackets, and its own. -/
structure Closes (k : Context) (stack : List Bracket) (cs : List Char) : Prop where
  code : (k.run cs).isCode = true
  nested : (trace k cs).foldlM openAfter? stack = some []

/-- The text ends in code, and its brackets in code are nested. -/
abbrev WellFormed (cs : List Char) : Prop := Closes .start [] cs

instance (k : Context) (stack : List Bracket) (cs : List Char) : Decidable (Closes k stack cs) :=
  decidable_of_iff (_ ∧ (trace k cs).foldlM openAfter? stack = some [])
    ⟨fun h => ⟨h.1, h.2⟩, fun h => ⟨h.code, h.nested⟩⟩

namespace Closes
variable {k : Context} {stack : List Bracket} {xs ys cs : List Char} {b : Bracket}

theorem run_eq (h : Closes .start stack cs) : Context.start.run cs = .start :=
  Context.run_eq_start h.code

theorem keeps (h : WellFormed cs) (stack : List Bracket) : Keeps openAfter? stack cs :=
  ⟨h.run_eq, foldlM_openAfter?_append h.nested stack⟩

theorem append_iff (hx : Keeps openAfter? stack xs) (hj : Joins .start xs ys) :
    Closes .start stack (xs ++ ys) ↔ Closes .start stack ys := by
  have hfold : (trace .start (xs ++ ys)).foldlM openAfter? stack =
      (trace .start ys).foldlM openAfter? stack := by
    rw [hj, List.foldlM_append, hx.2, hx.1]
    rfl
  constructor <;> rintro ⟨hcode, hnested⟩
  · rw [hj.run, hx.1] at hcode
    exact ⟨hcode, hfold ▸ hnested⟩
  · exact ⟨by rw [hj.run, hx.1]; exact hcode, hfold ▸ hnested⟩

theorem iff_of_trace_eq {s : Step} {rest : List Char} (ht : trace k cs = s :: trace s.after rest) :
    Closes k stack cs ↔ ∃ stack', openAfter? stack s = some stack' ∧ Closes s.after stack' rest := by
  have hrun : k.run cs = s.after.run rest := by rw [Context.run, ht]; rfl
  constructor
  · rintro ⟨hcode, hnested⟩
    rw [hrun] at hcode
    rw [ht, List.foldlM_cons] at hnested
    obtain ⟨stack', hs, hrest⟩ := Option.bind_eq_some_iff.mp hnested
    exact ⟨stack', hs, hcode, hrest⟩
  · rintro ⟨stack', hs, hcode, hrest⟩
    refine ⟨by rwa [hrun], ?_⟩
    rw [ht, List.foldlM_cons, hs]
    exact hrest

theorem cons_iff {c : Char} (hc : isQuiet c = true) {stack' : List Bracket}
    (hs : openAfter? stack ⟨.start, [c], .start⟩ = some stack') :
    Closes .start stack (c :: cs) ↔ Closes .start stack' cs := by
  rw [iff_of_trace_eq (trace_cons_of_isQuiet hc cs), hs]
  simp

theorem opener_iff : Closes .start stack (b.opener :: cs) ↔ Closes .start (b :: stack) cs :=
  cons_iff b.isQuiet_opener (openAfter?_opening b stack)

theorem closer_iff : Closes .start (b :: stack) (b.closer :: cs) ↔ Closes .start stack cs :=
  cons_iff b.isQuiet_closer (openAfter?_closing b stack)

theorem enclosed? (h : Closes .start (b :: stack) cs) : ∃ inner rest,
    b.enclosed? cs = some (inner, rest) ∧ WellFormed inner ∧ Closes .start stack rest := by
  obtain ⟨happ, last, hlast, hstop⟩ := splitAtStop_spec b.inside? 0 (trace .start cs)
  generalize splitAtStop b.inside? 0 (trace .start cs) = parts at happ hlast hstop
  obtain ⟨front, back⟩ := parts
  have hnested := h.nested
  rw [← happ, List.foldlM_append] at hnested
  obtain ⟨mid, hfront, hback⟩ := Option.bind_eq_some_iff.mp hnested
  obtain ⟨above, hfold, rfl, hcount⟩ :=
    (b.counts_inside? stack).run [] rfl hlast hfront
  cases back with
  | nil => simp [pure] at hback
  | cons s back =>
    obtain ⟨hcloser, rfl⟩ := Bracket.isCodeChar_of_inside? (hstop s rfl)
    obtain ⟨hcode, htext⟩ := Step.isCodeChar_iff.mp hcloser
    obtain ⟨more, hmore⟩ := List.head?_eq_some_iff.mp htext
    obtain ⟨hf, hb⟩ := trace_eq_append happ.symm
    have hrun := Context.run_eq_start (before_of_trace_eq hb ▸ hcode)
    have hcs : cs = spell front ++ b.closer :: (more ++ spell back) := by
      rw [← spell_trace .start cs, ← happ, spell_append, spell_cons, hmore]
      rfl
    -- The closer takes the innermost bracket away, so nothing that opened behind the opener is left.
    obtain rfl : above = [] := by
      obtain ⟨stack', hs, -⟩ := Option.bind_eq_some_iff.mp hback
      have hcons := eq_cons_of_openAfter? hcloser hs
      cases above with
      | nil => rfl
      | cons b' above =>
        obtain rfl : b' = b := (List.cons.inj hcons).1
        simp at hcount
    have hinner : WellFormed (spell front) := ⟨by rw [hrun]; rfl, by rw [hf]; exact hfold⟩
    refine ⟨_, _, Bracket.enclosed?_eq_some_iff.mpr ⟨hcs, hrun, by rw [hf]; exact hlast⟩, hinner, ?_⟩
    have hj := (hinner.keeps (b :: stack)).joins (b.apart_closer _ (more ++ spell back))
    rw [hcs, append_iff (hinner.keeps _) hj, closer_iff] at h
    exact h

/-- An expression is well-formed, and what follows it closes the open brackets. -/
theorem expression (h : Closes .start stack cs) :
    WellFormed (Lexical.expression cs).1 ∧ Closes .start stack (Lexical.expression cs).2 := by
  obtain ⟨silent, back, n, htrace, hsilent, -, hscan, hstop⟩ := expressionSteps_scan cs
  have hnested := h.nested
  rw [htrace, ← List.append_assoc, List.foldlM_append] at hnested
  obtain ⟨mid, hfront, hback⟩ := Option.bind_eq_some_iff.mp hnested
  obtain ⟨above, hfold, rfl, hcount⟩ :=
    (Nesting.counts_after? stack).run [] Nesting.count_zero hscan hfront
  obtain rfl := Nesting.eq_nil_of_stop hcount hstop hback
  have hmem : ∀ s ∈ silent, s ∈ trace .start cs := fun s hs => by
    rw [htrace]
    simp [hs]
  have hfree : ∀ s ∈ silent, ∀ c ∈ Bracket.all, s.isCodeChar c = false := fun s hs c hc =>
    s.isCodeChar_of_isSilent (hmem s hs) (hsilent s hs)
      ((by decide : ∀ c ∈ Bracket.all, isBlank c = false) c hc)
      ((by decide : ∀ c ∈ Bracket.all, c ≠ '/') c hc)
  have hinner : WellFormed (Lexical.expression cs).1 := by
    constructor
    · rcases expression_ends cs with hrun | ⟨-, hopen⟩
      · rw [hrun]
        rfl
      · simp [h.code] at hopen
    · rw [trace_expression]
      rw [List.foldlM_append] at hfold
      obtain ⟨mid, hmid, hrest⟩ := Option.bind_eq_some_iff.mp hfold
      rw [foldlM_eq_self fun s hs => openAfter?_of_free (hfree s hs) mid] at hrest
      rw [hmid, hrest]
  refine ⟨hinner, ?_⟩
  have happ := expression_append cs
  rw [← happ, append_iff (hinner.keeps stack) (expression_joins cs)] at h
  exact h

theorem isCodeChar_semicolon_of_expressionSteps (h : Closes .start stack cs) {front : List Step} {s : Step}
    (hs : expressionSteps cs = front ++ [s]) : s.isCodeChar ';' = false := by
  obtain ⟨silent, back, n, -, -, -, hscan, -⟩ := expressionSteps_scan cs
  rw [List.foldlM_append] at hscan
  obtain ⟨n', hsteps, -⟩ := Option.bind_eq_some_iff.mp hscan
  have hnested := h.expression.1.nested
  rw [trace_expression] at hnested
  -- All brackets are closed at the end, so none is open before the semicolon either.
  obtain rfl := Nesting.eq_zero_of_nested hsteps hnested
  rw [hs, List.foldlM_append] at hsteps
  obtain ⟨n', -, hlast⟩ := Option.bind_eq_some_iff.mp hsteps
  rw [List.foldlM_cons] at hlast
  obtain ⟨n'', hafter, hn''⟩ := Option.bind_eq_some_iff.mp hlast
  by_contra hcode
  have hsemi := Nesting.after?_semicolon (by simpa using hcode) hafter
  exact hsemi.2 (hsemi.1.symm.trans (Option.some.inj hn''))

/-! ## What follows behind a semicolon -/

/-- The scan for the end of an expression does not go past a semicolon that follows. -/
theorem expressionSteps_append (h : Closes .start stack cs) (ys : List Char) :
    expressionSteps (cs ++ ';' :: ys) = expressionSteps cs := by
  have hj : Joins .start cs (';' :: ys) := joins_of_isCode h.code (apart_cons (by decide) _ _)
  have hstops : Stops (';' :: ys) := by
    intro c hc
    obtain rfl := Option.some.inj hc
    decide
  obtain ⟨happ, n, hscan, hstop⟩ := splitAtStop_spec Nesting.after? .zero (trace .start cs)
  have hsplit : (splitAtStop Nesting.after? .zero (trace .start (cs ++ ';' :: ys))).1 =
      (splitAtStop Nesting.after? .zero (trace .start cs)).1 := by
    rw [hj, h.run_eq]
    generalize splitAtStop Nesting.after? .zero (trace .start cs) = parts at happ hscan hstop ⊢
    obtain ⟨front, back⟩ := parts
    rw [← happ, List.append_assoc, splitAtStop_append hscan]
    cases back with
    | nil =>
      obtain rfl : front = trace .start cs := by simpa using happ
      obtain rfl := Nesting.eq_zero_of_nested hscan h.nested
      simp [hstops.after?]
    | cons s back => simp [splitAtStop, hstop s rfl]
  rw [expressionSteps, expressionSteps, stepsWhile_eq, stepsWhile_eq]
  exact congrArg _ hsplit

theorem expression_append (h : Closes .start stack cs) (ys : List Char) :
    Lexical.expression (cs ++ ';' :: ys) =
      ((Lexical.expression cs).1, (Lexical.expression cs).2 ++ ';' :: ys) := by
  have hle : (Lexical.expression cs).1.length ≤ cs.length := by
    have happ := congrArg List.length (Lexical.expression_append cs)
    rw [List.length_append] at happ
    omega
  have htext : spell (expressionSteps (cs ++ ';' :: ys)) = spell (expressionSteps cs) := by
    rw [h.expressionSteps_append]
  exact Prod.ext htext (by
    simp only [Lexical.expression, htext]
    exact List.drop_append_of_le_length hle)

end Closes

theorem Bracket.enclosed?_append_right {b : Bracket} {cs inner rest : List Char}
    (h : b.enclosed? cs = some (inner, rest)) (ys : List Char) :
    b.enclosed? (cs ++ ys) = some (inner, rest ++ ys) := by
  obtain ⟨rfl, hclosed⟩ := enclosed?_eq_some_iff.mp h
  exact enclosed?_eq_some_iff.mpr ⟨by simp, hclosed⟩

end Florin.Lexical
