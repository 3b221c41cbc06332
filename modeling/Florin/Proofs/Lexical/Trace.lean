import Florin.Proofs.Lexical.Change
import Florin.Text.Blank

/-! # Traces of joined texts

The trace of a text is cut where one of its steps ends, and the two parts are the traces of the two
texts. Conversely the traces of two texts join unless their meeting characters make a pair. Code is
reached from code alone with no template open, so a scan that starts afresh in code goes on as the
one around it.
-/
namespace Florin.Lexical
open Text

namespace Context

/-- No template is open in code. -/
def Settled (k : Context) : Prop := k.isCode = true → k = start

theorem start_settled : start.Settled := fun _ => rfl

theorem leave_settled (k : Context) : k.leave.Settled := by
  obtain ⟨region, templates⟩ := k
  intro h
  cases templates with
  | nil => rfl
  | cons => simp [leave, enter, isCode] at h

theorem settled_of_ne {k : Context} (h : k.region ≠ .code) : k.Settled :=
  fun hcode => absurd (of_decide_eq_true hcode) h

/-- Only a closed literal or comment leads back to code. -/
theorem Change.settled {k k' : Context} {c : Char} {next : Option Char} {wide : Bool}
    (h : Change k c next wide k') (hk : k.Settled) : k'.Settled := by
  cases h with
  | stay | escape => exact hk
  | closeString | closeLineComment | closeBlockComment => exact leave_settled k
  | closeTemplate => exact leave_settled _
  | openString _ hr => exact settled_of_ne (by rintro rfl; cases hr)
  | openTemplate | openLineComment | openBlockComment | openInterpolation => exact settled_of_ne (by rintro ⟨⟩)
  | openBrace hr => exact settled_of_ne (by simp [region_openBrace, hr])
  | closeBrace hr => exact settled_of_ne (by rcases region_closeBrace k with h | h <;> simp [h, hr])

theorem step_settled {k : Context} (hk : k.Settled) (c : Char) (next : Option Char) :
    (k.step c next).1.Settled := (step_change k c next).settled hk

/-- A step that does not take the next character is the step at the end of a text. -/
theorem step_none_of_narrow {k : Context} {c d : Char} (h : (k.step c (some d)).2 = false) :
    k.step c none = k.step c (some d) := by
  rcases step_some k c d with hs | ⟨-, hwide, -⟩
  · exact hs.symm
  · exact absurd hwide (by simp [h])

/-- Where a text ends in code, the next character is read on its own unless it makes a comment. -/
theorem step_some_of_isCode {k : Context} {c d : Char} (hk : (k.step c none).1.isCode = true)
    (hd : c = '/' → d ≠ '/' ∧ d ≠ '*') : k.step c (some d) = ((k.step c none).1, false) := by
  have hcode : (k.step c none).1.region = .code := of_decide_eq_true hk
  refine step_some_of_not_quoted (by rw [hcode]; rfl) ?_
  rw [hcode]
  simp only [pairs, List.mem_cons, Prod.mk.injEq, List.not_mem_nil, or_false]
  rintro (⟨hc, hslash⟩ | ⟨hc, hstar⟩)
  · exact (hd hc).1 hslash
  · exact (hd hc).2 hstar

/-- Characters that end no pair change nothing about the step before them. -/
theorem step_some_of_detached {k : Context} {c d : Char} (hd : d ≠ '/' ∧ d ≠ '*' ∧ d ≠ '{') :
    k.step c (some d) = k.step c none := by
  rcases step_some k c d with hs | ⟨hpair, -⟩
  · exact hs
  · cases hr : k.region <;> simp [hr, pairs, hd] at hpair

end Context

/-! ## Cutting and joining -/

theorem trace_cons_of_narrow {k : Context} {c : Char} {cs : List Char}
    (h : (k.step c cs.head?).2 = false) :
    trace k (c :: cs) = ⟨k, [c], (k.step c cs.head?).1⟩ :: trace (k.step c cs.head?).1 cs := by
  cases cs with
  | nil => rfl
  | cons d rest => rw [trace, if_neg (by simpa using h)]; rfl

theorem trace_cons_of_wide {k : Context} {c d : Char} {cs : List Char}
    (h : (k.step c (some d)).2 = true) :
    trace k (c :: d :: cs) =
      ⟨k, [c, d], (k.step c (some d)).1⟩ :: trace (k.step c (some d)).1 cs := by
  rw [trace, if_pos h]

theorem exists_trace_cons (k : Context) (c : Char) (cs : List Char) :
    ∃ more steps, trace k (c :: cs) = ⟨k, c :: more, (k.step c cs.head?).1⟩ :: steps := by
  by_cases h : (k.step c cs.head?).2 = false
  · exact ⟨[], _, trace_cons_of_narrow h⟩
  · cases cs with
    | nil => exact ⟨[], [], rfl⟩
    | cons d cs => exact ⟨[d], _, trace_cons_of_wide (by simpa using h)⟩

/-! ## One step and the rest -/

def firstStep (k : Context) (c : Char) (cs : List Char) : Step :=
  ⟨k, if (k.step c cs.head?).2 then c :: cs.take 1 else [c], (k.step c cs.head?).1⟩

def behindStep (k : Context) (c : Char) (cs : List Char) : List Char :=
  if (k.step c cs.head?).2 then cs.drop 1 else cs

section First
variable (k : Context) (c : Char) (cs : List Char)

@[simp] theorem firstStep_before : (firstStep k c cs).before = k := rfl

theorem firstStep_nil : firstStep k c [] = ⟨k, [c], (k.step c none).1⟩ := by simp [firstStep]

theorem firstStep_of_wide {d : Char} (h : (k.step c (some d)).2 = true) :
    firstStep k c (d :: cs) = ⟨k, [c, d], (k.step c (some d)).1⟩ := by simp [firstStep, h]

theorem firstStep_of_narrow (h : (k.step c cs.head?).2 = false) :
    firstStep k c cs = ⟨k, [c], (k.step c cs.head?).1⟩ := by simp [firstStep, h]

theorem firstStep_append : (firstStep k c cs).text ++ behindStep k c cs = c :: cs := by
  unfold firstStep behindStep
  split
  · exact congrArg (c :: ·) (List.take_append_drop 1 cs)
  · rfl

theorem firstStep_head : (firstStep k c cs).text.head? = some c := by
  unfold firstStep
  split <;> rfl

theorem isCodeChar_firstStep (d : Char) : (firstStep k c cs).isCodeChar d = (k.isCode && decide (c = d)) := by
  rw [Step.isCodeChar, firstStep_head]
  simp [firstStep]

/-- What follows the text behind a character changes nothing about the step there. -/
theorem firstStep_append_of_ne_nil {cs : List Char} (h : cs ≠ []) (ys : List Char) :
    firstStep k c (cs ++ ys) = firstStep k c cs ∧ behindStep k c (cs ++ ys) = behindStep k c cs ++ ys := by
  obtain ⟨d, cs, rfl⟩ := List.exists_cons_of_ne_nil h
  unfold firstStep behindStep
  cases hw : (k.step c (some d)).2 <;> simp [hw]

theorem behindStep_suffix : behindStep k c cs <:+ cs := by
  unfold behindStep
  split
  · exact List.drop_suffix 1 cs
  · exact List.suffix_refl cs

theorem behindStep_length_le : (behindStep k c cs).length ≤ cs.length := (behindStep_suffix k c cs).length_le

theorem trace_cons : trace k (c :: cs) = firstStep k c cs ::
    trace (firstStep k c cs).after (behindStep k c cs) := by
  cases cs with
  | nil => cases hw : (k.step c none).2 <;> simp [firstStep, behindStep, hw, trace]
  | cons d rest => cases hw : (k.step c (some d)).2 <;> simp [firstStep, behindStep, hw, trace]

/-- The step stays the same over another text that goes on with what it looks at. -/
theorem trace_firstStep_append {ys : List Char} (h : ys ≠ [] → cs ≠ [] ∧
      ((k.step c cs.head?).2 = false → k.step c ys.head? = k.step c cs.head?)) :
    trace k ((firstStep k c cs).text ++ ys) = firstStep k c cs :: trace (firstStep k c cs).after ys := by
  cases cs with
  | nil =>
    obtain rfl : ys = [] := by simpa using h
    rw [firstStep_nil]
    rfl
  | cons d cs =>
    cases hw : (k.step c (some d)).2 with
    | true => rw [firstStep_of_wide k c cs hw, List.cons_append, List.singleton_append, trace_cons_of_wide hw]
    | false =>
      have hnarrow : (k.step c (d :: cs).head?).2 = false := hw
      have hs : k.step c ys.head? = k.step c (some d) := by
        cases ys with
        | nil => exact Context.step_none_of_narrow hw
        | cons e ys => exact (h (List.cons_ne_nil e ys)).2 hnarrow
      rw [firstStep_of_narrow k c (d :: cs) hnarrow, List.singleton_append,
        trace_cons_of_narrow (by rw [hs]; exact hw), hs]
      rfl

end First

/-- Induction along the steps over a text. -/
@[elab_as_elim]
theorem step_induction {motive : Context → List Char → Prop} (nil : ∀ k, motive k [])
    (cons : ∀ k c cs, motive (firstStep k c cs).after (behindStep k c cs) → motive k (c :: cs))
    (k : Context) (cs : List Char) : motive k cs := by
  induction h : cs.length using Nat.strongRecOn generalizing k cs with
  | _ n ih =>
    cases cs with
    | nil => exact nil k
    | cons c cs =>
      refine cons k c cs (ih _ ?_ _ _ rfl)
      have hle := behindStep_length_le k c cs
      simp only [List.length_cons] at h
      omega

/-- Every step is the first one over the text from it on. -/
theorem exists_firstStep {k : Context} {cs : List Char} {s : Step} (h : s ∈ trace k cs) :
    ∃ c more, s = firstStep s.before c more := by
  induction k, cs using step_induction with
  | nil => simp [trace] at h
  | cons k c cs ih =>
    rw [trace_cons] at h
    rcases List.mem_cons.mp h with rfl | h
    · exact ⟨c, cs, rfl⟩
    · exact ih h

/-- A step makes what its first character and the one after it make. -/
theorem exists_of_mem_trace {k : Context} {cs : List Char} {s : Step} (h : s ∈ trace k cs) :
    ∃ c more next, s.text = c :: more ∧ s.after = (s.before.step c next).1 ∧
      ((s.before.step c next).2 = false → more = []) := by
  obtain ⟨c, rest, hs⟩ := exists_firstStep h
  cases hw : (s.before.step c rest.head?).2 with
  | true =>
    refine ⟨c, rest.take 1, rest.head?, ?_, congrArg Step.after hs, fun hn => absurd hw (by simp [hn])⟩
    rw [hs, firstStep, if_pos hw]
  | false =>
    refine ⟨c, [], rest.head?, ?_, congrArg Step.after hs, fun _ => rfl⟩
    rw [hs, firstStep_of_narrow _ _ _ hw]

/-- A step reads one character, or a pair. -/
theorem text_of_mem_trace {k : Context} {cs : List Char} {s : Step} (h : s ∈ trace k cs) :
    (∃ c, s.text = [c]) ∨ ∃ c d, s.text = [c, d] ∧ (s.before.step c (some d)).2 = true ∧
      s.after = (s.before.step c (some d)).1 := by
  obtain ⟨c, rest, hs⟩ := exists_firstStep h
  cases rest with
  | nil => exact .inl ⟨c, by rw [hs, firstStep_nil]⟩
  | cons d rest =>
    cases hw : (s.before.step c (some d)).2 with
    | true =>
      rw [firstStep_of_wide _ _ _ hw] at hs
      exact .inr ⟨c, d, congrArg Step.text hs, hw, congrArg Step.after hs⟩
    | false =>
      have hnarrow : (s.before.step c (d :: rest).head?).2 = false := hw
      exact .inl ⟨c, by rw [hs, firstStep_of_narrow _ _ _ hnarrow]⟩

/-! ## Runs -/

namespace Context

@[simp] theorem run_nil (k : Context) : k.run [] = k := rfl

theorem run_cons_of_narrow {k : Context} {c : Char} {cs : List Char}
    (h : (k.step c cs.head?).2 = false) : k.run (c :: cs) = (k.step c cs.head?).1.run cs := by
  rw [run, trace_cons_of_narrow h]
  rfl

theorem run_cons_of_wide {k : Context} {c d : Char} {cs : List Char}
    (h : (k.step c (some d)).2 = true) : k.run (c :: d :: cs) = (k.step c (some d)).1.run cs := by
  rw [run, trace_cons_of_wide h]
  rfl

theorem run_cons (k : Context) (c : Char) (cs : List Char) :
    k.run (c :: cs) = (firstStep k c cs).after.run (behindStep k c cs) := by
  rw [run, trace_cons]
  rfl

theorem run_firstStep (k : Context) (c : Char) (cs : List Char) :
    k.run (firstStep k c cs).text = (firstStep k c cs).after := by
  have ht : trace k ((firstStep k c cs).text ++ []) = [firstStep k c cs] := trace_firstStep_append k c cs (by simp)
  rw [List.append_nil] at ht
  rw [run, ht]
  rfl

theorem run_settled {k : Context} (hk : k.Settled) (cs : List Char) : (k.run cs).Settled := by
  induction k, cs using step_induction with
  | nil => exact hk
  | cons k c cs ih =>
    rw [run_cons]
    exact ih (step_settled hk c _)

theorem run_eq_start {cs : List Char} (h : (start.run cs).isCode = true) : start.run cs = start :=
  run_settled start_settled cs h

end Context

/-- The steps over two texts in a row are the steps over the one and then over the other. -/
def Joins (k : Context) (xs ys : List Char) : Prop :=
  trace k (xs ++ ys) = trace k xs ++ trace (k.run xs) ys

/-- The two texts do not make a comment where they meet. -/
def Apart (xs ys : List Char) : Prop :=
  ∀ c d, xs.getLast? = some c → ys.head? = some d → c = '/' → d ≠ '/' ∧ d ≠ '*'

theorem Joins.run {k : Context} {xs ys : List Char} (h : Joins k xs ys) :
    k.run (xs ++ ys) = (k.run xs).run ys := by
  rw [Context.run, h, List.foldl_append]
  rfl

theorem apart_cons {d : Char} (h : d ≠ '/' ∧ d ≠ '*') (xs ys : List Char) : Apart xs (d :: ys) := by
  intro c d' _ hd _
  obtain rfl := Option.some.inj hd
  exact h

theorem apart_concat {c : Char} (h : c ≠ '/') (xs ys : List Char) : Apart (xs ++ [c]) ys := by
  intro c' d hc _ hs
  rw [List.getLast?_concat] at hc
  exact absurd ((Option.some.inj hc).trans hs) h

theorem Apart.of_suffix {xs ys zs : List Char} (h : Apart xs zs) (hs : ys <:+ xs) : Apart ys zs := by
  obtain ⟨front, rfl⟩ := hs
  intro c d hc
  exact h c d (by rw [List.getLast?_append, hc]; rfl)

theorem joins_of_last {k : Context} {xs ys : List Char} (p : Context → Prop) (hk : p (k.run xs))
    (h : ∀ (k : Context) c d, xs.getLast? = some c → ys.head? = some d → p (k.step c none).1 →
      k.step c (some d) = ((k.step c none).1, false)) : Joins k xs ys := by
  unfold Joins
  induction k, xs using step_induction with
  | nil => rfl
  | cons k c xs ih =>
    by_cases hxs : xs = []
    · subst hxs
      cases ys with
      | nil => simp [trace]
      | cons d ys =>
        have hs := h k c d rfl rfl hk
        rw [List.singleton_append, trace_cons_of_narrow (congrArg Prod.snd hs), List.head?_cons, hs]
        rfl
    · obtain ⟨hstep, hbehind⟩ := firstStep_append_of_ne_nil k c hxs ys
      rw [Context.run_cons] at hk ⊢
      rw [List.cons_append, trace_cons, hstep, hbehind, trace_cons]
      refine congrArg (_ :: ·) (ih hk fun k' x y hx => h k' x y ?_)
      rw [← firstStep_append k c xs, List.getLast?_append, hx]
      rfl

/-- A text that ends in code joins what follows, unless the two make a comment. -/
theorem joins_of_isCode {k : Context} {xs ys : List Char} (hk : (k.run xs).isCode = true)
    (ha : Apart xs ys) : Joins k xs ys :=
  joins_of_last (fun k => k.isCode = true) hk fun _ c d hc hd hcode =>
    Context.step_some_of_isCode hcode (ha c d hc hd)

theorem trace_eq_nil_iff {k : Context} {cs : List Char} : trace k cs = [] ↔ cs = [] := by
  fun_cases trace k cs <;> simp

theorem before_of_trace_eq {k : Context} {cs : List Char} {s : Step} {steps : List Step}
    (h : trace k cs = s :: steps) : s.before = k := by
  cases cs with
  | nil => simp [trace] at h
  | cons c cs =>
    obtain ⟨more, rest, ht⟩ := exists_trace_cons k c cs
    rw [ht] at h
    rw [← (List.cons.inj h).1]

/-- A trace cut between two steps falls into the traces of the two texts. -/
theorem trace_eq_append {k : Context} {cs : List Char} {front back : List Step}
    (h : trace k cs = front ++ back) :
    trace k (spell front) = front ∧ trace (k.run (spell front)) (spell back) = back := by
  induction k, cs using step_induction generalizing front with
  | nil => simp_all [trace]
  | cons k c cs ih =>
    cases front with
    | nil =>
      obtain rfl := h
      exact ⟨rfl, by rw [spell_trace]; rfl⟩
    | cons s front =>
      rw [trace_cons, List.cons_append] at h
      obtain ⟨rfl, ht⟩ := List.cons.inj h
      obtain ⟨hf, hb⟩ := ih ht
      have hbehind : behindStep k c cs = spell front ++ spell back := by
        rw [← spell_append, ← ht, spell_trace]
      -- The step looks at the head of the front, or at the end of the text if nothing is left of it.
      have hstep : trace k ((firstStep k c cs).text ++ spell front) =
          firstStep k c cs :: trace (firstStep k c cs).after (spell front) := by
        refine trace_firstStep_append k c cs fun hne => ⟨?_, fun hn => ?_⟩
        · rintro rfl
          simp [behindStep, hne] at hbehind
        · obtain ⟨e, more, hmore⟩ := List.exists_cons_of_ne_nil hne
          have hcs : cs = spell front ++ spell back := by simpa [behindStep, hn] using hbehind
          rw [hcs, hmore]
          rfl
      have hrun : k.run (spell (firstStep k c cs :: front)) = (firstStep k c cs).after.run (spell front) := by
        rw [spell_cons, Context.run, hstep]
        rfl
      rw [hrun]
      exact ⟨by rw [spell_cons, hstep, hf], hb⟩

theorem joins_of_trace_eq {k : Context} {cs : List Char} {front back : List Step}
    (h : trace k cs = front ++ back) :
    cs = spell front ++ spell back ∧ Joins k (spell front) (spell back) := by
  obtain ⟨hf, hb⟩ := trace_eq_append h
  have hcs : cs = spell front ++ spell back := by rw [← spell_append, ← h, spell_trace]
  refine ⟨hcs, ?_⟩
  rw [Joins, ← hcs, hf, hb, h]

theorem run_of_trace_concat {k : Context} {cs : List Char} {front : List Step} {s : Step}
    (h : trace k cs = front ++ [s]) : k.run cs = s.after := by
  rw [Context.run, h, List.foldl_append]
  rfl

/-- A step starts in the context that the one before it leaves behind. -/
theorem before_eq_after {k : Context} {cs : List Char} {front back : List Step} {s t : Step}
    (h : trace k cs = front ++ s :: t :: back) : t.before = s.after := by
  have hcut : trace k cs = (front ++ [s]) ++ t :: back := by rw [h, List.append_assoc]; rfl
  obtain ⟨hfront, hback⟩ := trace_eq_append hcut
  rw [before_of_trace_eq hback, run_of_trace_concat hfront]

/-! ## Quiet text -/

/-- The character opens no literal and no comment. -/
def isQuiet (c : Char) : Bool := c ≠ '\'' && c ≠ '"' && c ≠ backtick && c ≠ '/'

theorem Context.step_start_of_isQuiet {c : Char} (h : isQuiet c = true) (next : Option Char) :
    start.step c next = (start, false) := by
  simp only [isQuiet, Bool.and_eq_true, decide_eq_true_eq] at h
  obtain ⟨⟨⟨h1, h2⟩, h3⟩, h4⟩ := h
  simp [step, start, stepCode, h1, h2, h3, h4]

theorem trace_cons_of_isQuiet {c : Char} (h : isQuiet c = true) (cs : List Char) :
    trace .start (c :: cs) = ⟨.start, [c], .start⟩ :: trace .start cs := by
  have hs := Context.step_start_of_isQuiet h cs.head?
  rw [trace_cons_of_narrow (congrArg Prod.snd hs), hs]

theorem Context.run_cons_of_isQuiet {c : Char} (h : isQuiet c = true) (cs : List Char) :
    start.run (c :: cs) = start.run cs := by
  have hs := step_start_of_isQuiet h cs.head?
  rw [run_cons_of_narrow (congrArg Prod.snd hs), hs]

/-- A property of all characters of a text is decided over the text. -/
instance decidableForallMem (p : Char → Prop) [DecidablePred p] (cs : List Char) :
    Decidable (∀ c ∈ cs, p c) := List.decidableBAll p cs

def Quiet (cs : List Char) : Prop := ∀ c ∈ cs, isQuiet c = true

instance (cs : List Char) : Decidable (Quiet cs) :=
  inferInstanceAs (Decidable (∀ c ∈ cs, isQuiet c = true))

theorem quiet_nil : Quiet [] := by simp [Quiet]

theorem Quiet.cons {c : Char} {cs : List Char} (hc : isQuiet c = true) (h : Quiet cs) :
    Quiet (c :: cs) := List.forall_mem_cons.mpr ⟨hc, h⟩

theorem Quiet.append {xs ys : List Char} (hx : Quiet xs) (hy : Quiet ys) : Quiet (xs ++ ys) := by
  intro c hc
  rcases List.mem_append.mp hc with hc | hc
  · exact hx c hc
  · exact hy c hc

theorem Quiet.apart {xs : List Char} (h : Quiet xs) (ys : List Char) : Apart xs ys := by
  intro c d hc _ hs
  have hq := h c (List.mem_of_getLast? hc)
  simp [isQuiet, hs] at hq

theorem Quiet.trace {cs : List Char} (h : Quiet cs) :
    trace .start cs = cs.map fun c => ⟨.start, [c], .start⟩ := by
  induction cs with
  | nil => rfl
  | cons c cs ih =>
    rw [trace_cons_of_isQuiet (h c List.mem_cons_self), ih fun x hx => h x (List.mem_cons_of_mem c hx)]
    rfl

theorem Quiet.run {cs : List Char} (h : Quiet cs) : Context.start.run cs = .start := by
  induction cs with
  | nil => rfl
  | cons c cs ih =>
    rw [Context.run_cons_of_isQuiet (h c List.mem_cons_self)]
    exact ih fun x hx => h x (List.mem_cons_of_mem c hx)

theorem Quiet.joins {xs : List Char} (h : Quiet xs) (ys : List Char) : Joins .start xs ys :=
  joins_of_isCode (by rw [h.run]; rfl) (h.apart ys)

/-- A blank or a semicolon. -/
def isIdle (c : Char) : Bool := isBlank c || c = ';'

theorem isIdle_of_isBlank {c : Char} (h : isBlank c = true) : isIdle c = true := by simp [isIdle, h]

theorem isIdle_ne {b : Char} (hb : isIdle b = false) {c : Char} (hc : isIdle c = true) : c ≠ b := by
  rintro rfl
  exact absurd hc (by simp [hb])

theorem isQuiet_of_isIdle {c : Char} (h : isIdle c = true) : isQuiet c = true := by
  have h1 := isIdle_ne (b := '\'') (by decide) h
  have h2 := isIdle_ne (b := '"') (by decide) h
  have h3 := isIdle_ne (b := backtick) (by decide) h
  have h4 := isIdle_ne (b := '/') (by decide) h
  simp [isQuiet, h1, h2, h3, h4]

theorem quiet_of_blank {cs : List Char} (h : ∀ c ∈ cs, isBlank c = true) : Quiet cs :=
  fun c hc => isQuiet_of_isIdle (isIdle_of_isBlank (h c hc))

theorem Context.step_of_isIdle {k : Context} {c : Char} (hi : isIdle c = true)
    (hk : k.region ≠ .lineComment) (next : Option Char) : k.step c next = (k, false) := by
  have h1 := isIdle_ne (b := '\'') (by decide) hi
  have h2 := isIdle_ne (b := '"') (by decide) hi
  have h3 := isIdle_ne (b := backtick) (by decide) hi
  have h4 := isIdle_ne (b := '/') (by decide) hi
  have h5 := isIdle_ne (b := '\\') (by decide) hi
  have h6 := isIdle_ne (b := '*') (by decide) hi
  have h7 := isIdle_ne (b := '$') (by decide) hi
  have h8 := isIdle_ne (b := '{') (by decide) hi
  have h9 := isIdle_ne (b := '}') (by decide) hi
  obtain ⟨region, templates⟩ := k
  cases region <;>
    simp_all [step, stepCode, stepQuoted, stepTemplate, stepInterpolation]

theorem Context.step_semicolon (k : Context) (next : Option Char) : k.step ';' next = (k, false) := by
  by_cases hk : k.region = .lineComment
  · simp [step, hk]
  · exact step_of_isIdle (by decide) hk next

theorem trace_idle {k : Context} (hk : k.region ≠ .lineComment) {cs : List Char}
    (h : ∀ c ∈ cs, isIdle c = true) : trace k cs = cs.map fun c => ⟨k, [c], k⟩ := by
  induction cs with
  | nil => rfl
  | cons c cs ih =>
    have hs := Context.step_of_isIdle (h c List.mem_cons_self) hk cs.head?
    rw [trace_cons_of_narrow (congrArg Prod.snd hs), hs, ih fun x hx => h x (List.mem_cons_of_mem c hx)]
    rfl

theorem Context.run_idle {k : Context} (hk : k.region ≠ .lineComment) {cs : List Char}
    (h : ∀ c ∈ cs, isIdle c = true) : k.run cs = k := by
  induction cs with
  | nil => rfl
  | cons c cs ih =>
    have hs := step_of_isIdle (h c List.mem_cons_self) hk cs.head?
    rw [run_cons_of_narrow (congrArg Prod.snd hs), hs]
    exact ih fun x hx => h x (List.mem_cons_of_mem c hx)

theorem Context.step_wide_ne_lineComment {k : Context} {c d : Char} (hi : isIdle d = true)
    (hw : (k.step c (some d)).2 = true) : (k.step c (some d)).1.region ≠ .lineComment := by
  rcases (step_change_wide hw).pair_of_wide with ⟨hs, hquote⟩ | hpair
  · rw [hs]
    intro hk
    simp [hk, Region.quote?] at hquote
  · have h1 := isIdle_ne (b := '/') (by decide) hi
    have h2 := isIdle_ne (b := '*') (by decide) hi
    have h3 := isIdle_ne (b := '{') (by decide) hi
    cases hr : k.region <;> simp [hr, pairs, h1, h2, h3] at hpair

/-- Idle characters at the end of a text may be read apart from it. -/
theorem Context.run_append_idle (k : Context) (xs : List Char) {ys : List Char}
    (h : ∀ c ∈ ys, isIdle c = true) : k.run (xs ++ ys) = (k.run xs).run ys := by
  induction k, xs using step_induction with
  | nil => rfl
  | cons k c xs ih =>
    by_cases hxs : xs = []
    · subst hxs
      cases ys with
      | nil => rfl
      | cons d ys =>
        have hi := h d List.mem_cons_self
        have hs : k.step c (some d) = k.step c none :=
          step_some_of_detached ⟨isIdle_ne (by decide) hi, isIdle_ne (by decide) hi, isIdle_ne (by decide) hi⟩
        have hrun : k.run [c] = (k.step c (some d)).1 := (congrArg Prod.fst hs).symm
        rw [hrun, List.singleton_append]
        cases hw : (k.step c (some d)).2 with
        | true =>
          have hne := step_wide_ne_lineComment hi hw
          have hrest : ∀ x ∈ ys, isIdle x = true := fun x hx => h x (List.mem_cons_of_mem d hx)
          rw [run_cons_of_wide hw, run_idle hne hrest, run_idle hne h]
        | false => exact run_cons_of_narrow hw
    · obtain ⟨hstep, hbehind⟩ := firstStep_append_of_ne_nil k c hxs ys
      rw [List.cons_append, run_cons, hstep, hbehind, ih, ← run_cons]

theorem Context.step_ne_lineComment {k : Context} (hc : k.isCode = false)
    (hk : k.region ≠ .lineComment) (c : Char) (next : Option Char) :
    (k.step c next).1.region ≠ .lineComment := by
  intro hafter
  rcases (step_change k c next).into_isComment (by rw [hafter]; rfl) with h | ⟨hcode, -⟩
  · exact hk (h ▸ hafter)
  · simp [isCode, hcode] at hc

end Florin.Lexical
