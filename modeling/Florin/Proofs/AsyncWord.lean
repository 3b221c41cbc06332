import Florin.Proofs.Lexical.Nested
import Florin.Proofs.Partition

/-! # When a shorthand is asynchronous

A shorthand is asynchronous if and only if the word `async` stands in code right before its sigil, with
blanks at most between them. A scan sees this from what it remembers: it is followed round by round, and
whenever a sigil may come next, something is pending just where the text so far ends in that way.
-/
namespace Florin
open Text Lexical

namespace Scan

/-! ## Rounds -/

/-- Where a scan stands in its text. -/
structure Stage where
  place : Nat
  state : State
  rest : List Char
  deriving DecidableEq, Repr

def Stage.begin (place : Nat) (cs : List Char) : Stage := ⟨place, .initial, cs⟩

/-- A step that starts no word is put out. -/
def stepOver (place : Nat) (σ : State) (c : Char) : List Char → Stage
  | [] => ⟨place + 1, σ.copyStep c [c] (σ.context.step c none).1, []⟩
  | d :: more =>
    if (σ.context.step c (some d)).2 then
      ⟨place + 2, σ.copyStep c [c, d] (σ.context.step c (some d)).1, more⟩
    else ⟨place + 1, σ.copyStep c [c] (σ.context.step c (some d)).1, d :: more⟩

def round? (w : Keyword) (place : Nat) (σ : State) : List Char → Option Stage
  | [] => none
  | c :: rest =>
    if σ.context.isCode && c = sigil then
      match Shorthand.read? rest with
      | some (s, after) =>
        some ⟨place + 1 + s.span.length,
          σ.emit w place s (run w (place + 1 + s.lead.length) .initial s.params)
            (run w (place + 1 + s.lead.length + s.params.length + s.middle.length) .initial s.body.text),
          after⟩
      | none => some ⟨place + 1, σ.copySigil place, rest⟩
    else
      match if σ.context.isCode then word? σ.joined (c :: rest) else none with
      | some (word, after) => some ⟨place + word.length, σ.copyWord word, after⟩
      | none => some (stepOver place σ c rest)

def rounds? (w : Keyword) : Nat → Stage → Option Stage
  | 0, t => some t
  | n + 1, t => (round? w t.place t.state t.rest).bind (rounds? w n)

section Rounds
variable {w : Keyword} {place : Nat} {σ : State} {cs : List Char} {t : Stage}

theorem run_of_round? (h : round? w place σ cs = some t) :
    run w place σ cs = run w t.place t.state t.rest := by
  fun_cases run w place σ cs with
  | case1 => simp [round?] at h
  | case2 c rest hs s after hr =>
    rw [round?, if_pos hs, hr] at h
    obtain rfl := Option.some.inj h
    rfl
  | case3 c rest hs hr =>
    rw [round?, if_pos hs, hr] at h
    obtain rfl := Option.some.inj h
    rfl
  | case4 c rest hs word after hw =>
    rw [round?, if_neg hs, hw] at h
    obtain rfl := Option.some.inj h
    rfl
  | case5 c hs hw =>
    rw [round?, if_neg hs, hw] at h
    obtain rfl := Option.some.inj h
    rw [stepOver, run]
  | case6 c hs d more hw hwide =>
    rw [round?, if_neg hs, hw] at h
    obtain rfl := Option.some.inj h
    rw [stepOver, if_pos hwide]
  | case7 c hs d more hw hwide =>
    rw [round?, if_neg hs, hw] at h
    obtain rfl := Option.some.inj h
    rw [stepOver, if_neg hwide]

/-- What every round preserves, any number of them does. -/
@[elab_as_elim]
theorem rounds_induction {motive : Stage → Prop} {n : Nat} {t' : Stage} (start : motive t)
    (round : ∀ t t', motive t → round? w t.place t.state t.rest = some t' → motive t')
    (h : rounds? w n t = some t') : motive t' := by
  induction n generalizing t with
  | zero =>
    obtain rfl := Option.some.inj h
    exact start
  | succ n ih =>
    obtain ⟨mid, hmid, hrest⟩ := Option.bind_eq_some_iff.mp h
    exact ih (round t mid start hmid) hrest

theorem run_of_rounds? {n : Nat} {t' : Stage} (h : rounds? w n t = some t') :
    run w t.place t.state t.rest = run w t'.place t'.state t'.rest := by
  refine rounds_induction (motive := fun u => run w t.place t.state t.rest = run w u.place u.state u.rest) rfl ?_ h
  intro u u' hu hround
  exact hu.trans (run_of_round? hround)

theorem exists_stepOver (place : Nat) (σ : State) (c : Char) (rest : List Char) :
    ∃ more, c :: more ++ (stepOver place σ c rest).rest = c :: rest := by
  unfold stepOver
  split
  · exact ⟨[], rfl⟩
  · split
    · exact ⟨[_], rfl⟩
    · exact ⟨[], rfl⟩

theorem exists_of_round? (h : round? w place σ cs = some t) : ∃ c more, c :: more ++ t.rest = cs := by
  cases cs with
  | nil => simp [round?] at h
  | cons c rest =>
    rw [round?] at h
    split at h
    · split at h
      · rename_i s after hr
        obtain rfl := Option.some.inj h
        exact ⟨c, s.span, congrArg (c :: ·) (Shorthand.read?_append hr)⟩
      · obtain rfl := Option.some.inj h
        exact ⟨c, [], rfl⟩
    · split at h
      · rename_i word after hw
        obtain ⟨-, hw⟩ := Option.ite_none_right_eq_some.mp hw
        obtain rfl := Option.some.inj h
        refine ⟨c, rest.takeWhile isWordChar, ?_⟩
        rw [← (word?_spec hw).2.2.1]
        exact (word?_append hw).1.symm
      · obtain rfl := Option.some.inj h
        exact ⟨c, exists_stepOver place σ c rest⟩

theorem suffix_of_round? (h : round? w place σ cs = some t) : t.rest <:+ cs := by
  obtain ⟨c, more, hcs⟩ := exists_of_round? h
  exact ⟨c :: more, hcs⟩

theorem isSome_round? (hne : cs ≠ []) : (round? w place σ cs).isSome = true := by
  obtain ⟨c, rest, rfl⟩ := List.exists_cons_of_ne_nil hne
  rw [round?]
  split
  · split <;> rfl
  · split <;> rfl

/-- The rounds come to the end of the text, and make up the scan. -/
theorem exists_rounds (w : Keyword) (t : Stage) : ∃ n t', rounds? w n t = some t' ∧ t'.rest = [] ∧
    run w t.place t.state t.rest = t'.state.done := by
  induction hn : t.rest.length using Nat.strong_induction_on generalizing t with
  | _ length ih =>
    by_cases hnil : t.rest = []
    · exact ⟨0, t, rfl, hnil, by rw [hnil, run]⟩
    · obtain ⟨mid, hmid⟩ := Option.isSome_iff_exists.mp (isSome_round? (w := w) hnil)
      obtain ⟨c, more, hmore⟩ := exists_of_round? hmid
      have hlt : mid.rest.length < length := by
        rw [← hn, ← hmore, List.length_append, List.length_cons]
        omega
      obtain ⟨n, t', hrounds, hrest, hdone⟩ := ih mid.rest.length hlt mid rfl
      exact ⟨n + 1, t', Option.bind_eq_some_iff.mpr ⟨mid, hmid, hrounds⟩, hrest,
        (run_of_round? hmid).trans hdone⟩

end Rounds

end Scan

/-! ## What follows a shorthand -/

namespace Lexical

/-- An expression stops at a closer, a comma or a semicolon. -/
theorem Nesting.exists_of_stop {n : Nesting} {s : Step} (h : n.after? s = none) :
    ∃ c ∈ stops, s.isCodeChar c = true := by
  rcases s.bracket_cases with ⟨b, hb⟩ | ⟨b, hb⟩ | hfree
  · simp [after?_opener hb] at h
  · exact ⟨b.closer, by cases b <;> decide, hb⟩
  · by_contra hno
    have hcomma : ∀ c ∈ [',', ';'], s.isCodeChar c = false := fun c hc => by
      by_contra hcode
      exact hno ⟨c, (by decide : ∀ c ∈ [',', ';'], c ∈ stops) c hc, by simpa using hcode⟩
    simp [after?_of_isCodeChar hfree (.inr hcomma)] at h

/-- Behind silent steps from code on, a text goes on with a comment or with what stops an expression. -/
theorem head_skipBlanks_of_silent {cs : List Char} {silent back : List Step} {n : Nesting}
    (ht : trace .start cs = silent ++ back) (hsilent : ∀ s ∈ silent, s.isSilent = true)
    (hback : ∀ s ∈ back.head?, n.after? s = none) :
    ∀ c ∈ (skipBlanks cs).head?, c ∈ '/' :: stops := by
  induction cs generalizing silent with
  | nil => simp [skipBlanks]
  | cons d cs ih =>
    obtain ⟨more, steps, hd⟩ := exists_trace_cons .start d cs
    have hstop {s : Step} (hs : s.before = .start) (hhead : s.text.head? = some d)
        (h : n.after? s = none) : d ∈ stops := by
      obtain ⟨c, hc, hcode⟩ := Nesting.exists_of_stop h
      obtain rfl : d = c := Option.some.inj (hhead.symm.trans (Step.isCodeChar_iff.mp hcode).2)
      exact hc
    by_cases hblank : isBlank d = true
    · have hquiet := trace_cons_of_isQuiet (isQuiet_of_isIdle (isIdle_of_isBlank hblank)) cs
      rw [hquiet] at ht
      cases silent with
      | nil =>
        have hmem := hstop rfl rfl (hback ⟨.start, [d], .start⟩ (by rw [← List.nil_append back, ← ht]; rfl))
        exact absurd hblank (by simp [(by decide : ∀ c ∈ stops, isBlank c = false) d hmem])
      | cons s silent =>
        have hskip : skipBlanks (d :: cs) = skipBlanks cs := List.dropWhile_cons_of_pos hblank
        rw [hskip]
        exact ih (List.cons.inj ht).2 fun s hs => hsilent s (List.mem_cons_of_mem _ hs)
    · rw [skipBlanks, List.dropWhile_cons_of_neg hblank]
      intro c hc
      obtain rfl : d = c := Option.some.inj hc
      rw [hd] at ht
      cases silent with
      | nil =>
        exact List.mem_cons_of_mem _ (hstop rfl rfl (hback _ (by rw [← List.nil_append back, ← ht]; rfl)))
      | cons s silent =>
        obtain rfl := (List.cons.inj ht).1
        have hs := hsilent _ List.mem_cons_self
        simp only [Step.isSilent, List.all_cons, hblank, Bool.false_and, Bool.or_false,
          Bool.or_eq_true, decide_eq_true_eq] at hs
        -- A silent step that is no blank stands in a comment, and the start of the text is in code.
        rcases hs with hs | hs
        · exact absurd hs (by decide)
        · simp only [Context.step, Context.start, Context.stepCode] at hs
          split_ifs at hs <;> simp_all [Context.enter, Context.openTemplate]

/-- What follows an expression that ends in code. -/
theorem head_skipBlanks_of_expression {cs : List Char}
    (hrun : Context.start.run (expression cs).1 = .start) :
    ∀ c ∈ (skipBlanks (expression cs).2).head?, c ∈ '/' :: stops := by
  obtain ⟨silent, back, n, ht, hsilent, -, -, hstop⟩ := expressionSteps_scan cs
  rw [expression_eq cs ht] at hrun ⊢
  have hrest := (trace_eq_append ht).2
  rw [hrun] at hrest
  exact head_skipBlanks_of_silent hrest hsilent hstop

end Lexical

namespace Shorthand.Spans
variable {s : Shorthand} {rest : List Char}

theorem joins (h : s.Spans rest) (hrun : Context.start.run s.body.text = .start) :
    Joins .start s.span rest ∧ Context.start.run s.span = .start := by
  have hbody : Joins .start s.body.text s.close := by
    rcases h.body with ⟨-, -, hc⟩ | ⟨-, -, hc, -⟩ <;> rw [hc]
    · exact joins_of_isCode (by rw [hrun]; rfl) (apart_cons (by decide) _ _)
    · rw [Joins, List.append_nil]
      simp [trace]
  have hparams : Joins .start s.params (s.middle ++ (s.body.text ++ s.close)) :=
    joins_of_isCode (by rw [h.params]; rfl) (h.apart _)
  have hspan : Context.start.run s.span = .start := by
    simp only [span, List.append_assoc]
    rw [(h.lead.joins _).run, h.lead.run, hparams.run, h.params, (h.middle.joins _).run, h.middle.run,
      hbody.run, hrun, h.close.run]
  have htrace : trace .start s.span = trace .start s.lead ++ (trace .start s.params ++
      (trace .start s.middle ++ (trace .start s.body.text ++ trace .start s.close))) := by
    simp only [span, List.append_assoc]
    rw [h.lead.joins, h.lead.run, hparams, h.params, h.middle.joins, h.middle.run, hbody, hrun]
  refine ⟨?_, hspan⟩
  rw [Joins, hspan, htrace, h.trace_eq, hrun, h.close.joins, h.close.run]
  simp

/-- A shorthand ends with a brace, or what follows it goes on with no word and no sigil. -/
theorem followed (h : s.Spans rest) (hrun : Context.start.run s.body.text = .start) :
    s.span.getLast? = some '}' ∨
      ∀ c ∈ (skipBlanks rest).head?, Identifier.isContinue c = false := by
  rcases h.body with ⟨-, -, hc⟩ | ⟨-, -, -, he⟩
  · left
    simp [span, hc]
  · right
    intro c hmem
    have hends : Context.start.run (expression (s.body.text ++ rest)).1 = .start := by
      rw [he]
      exact hrun
    have hc := head_skipBlanks_of_expression hends
    rw [he] at hc
    exact (by decide : ∀ c ∈ '/' :: stops, Identifier.isContinue c = false) c (hc c hmem)

end Shorthand.Spans

namespace Scan

/-! ## Words in code -/

/-- A word in code behind a text that no identifier goes on from. -/
structure WordAt (cs head word : List Char) : Prop where
  apart : head.getLast?.any Identifier.isContinue = false
  start : word.head?.any Identifier.isStart = true
  chars : ∀ c ∈ word, isWordChar c = true
  code : ∀ n, head.length ≤ n → n < head.length + word.length → CodeAt cs n

/-- The word `async` and blanks, in code behind a text that no identifier goes on from. -/
structure AsyncAt (cs head gap : List Char) : Prop where
  apart : head.getLast?.any Identifier.isContinue = false
  blank : ∀ c ∈ gap, isBlank c = true
  code : ∀ n, head.length ≤ n → n < head.length + (asyncWord ++ gap).length → CodeAt cs n

/-- A front of the text ends in the word `async` and blanks, in code. -/
def AsyncBefore (cs front : List Char) : Prop :=
  ∃ head gap, front = head ++ (asyncWord ++ gap) ∧ AsyncAt cs head gap

theorem isContinue_of_isWordChar {c : Char} (h : isWordChar c = true) : Identifier.isContinue c = true := by
  simp only [isWordChar, Bool.and_eq_true] at h
  exact h.2

theorem isBlank_of_isWordChar {c : Char} (h : isWordChar c = true) : isBlank c = false :=
  isBlank_eq_false_of_isContinue (isContinue_of_isWordChar h)

theorem WordAt.word_ne_nil {cs head word : List Char} (h : WordAt cs head word) : word ≠ [] := by
  rintro rfl
  exact absurd h.start (by decide)

theorem AsyncAt.wordAt {cs head gap : List Char} (h : AsyncAt cs head gap) : WordAt cs head asyncWord :=
  ⟨h.apart, by decide, by decide, fun n hn hlt => h.code n hn (by rw [List.length_append]; omega)⟩

section Blanks
variable {cs head gap : List Char} {c : Char}

theorem AsyncAt.concat (h : AsyncAt cs head gap) (hc : isBlank c = true)
    (hcode : CodeAt cs (head ++ (asyncWord ++ gap)).length) : AsyncAt cs head (gap ++ [c]) where
  apart := h.apart
  blank := List.forall_mem_append.mpr ⟨h.blank, by simpa using hc⟩
  code n hle hlt := by
    by_cases hlast : n = (head ++ (asyncWord ++ gap)).length
    · exact hlast ▸ hcode
    · refine h.code n hle ?_
      simp only [List.length_append, List.length_singleton] at hlt hlast ⊢
      omega

theorem AsyncAt.of_concat (h : AsyncAt cs head (gap ++ [c])) :
    AsyncAt cs head gap ∧ isBlank c = true ∧ CodeAt cs (head ++ (asyncWord ++ gap)).length := by
  refine ⟨⟨h.apart, fun d hd => h.blank d (List.mem_append_left _ hd), fun n hle hlt => h.code n hle ?_⟩,
    h.blank c (by simp), h.code _ ?_ ?_⟩
  all_goals simp only [List.length_append, List.length_singleton] at *
  all_goals omega

end Blanks

theorem eq_concat_of_append {front head xs : List Char} {c : Char} (h : front ++ [c] = head ++ xs)
    (hne : xs ≠ []) : ∃ ys, xs = ys ++ [c] ∧ front = head ++ ys := by
  obtain ⟨ys, d, rfl⟩ := (List.eq_nil_or_concat' xs).resolve_left hne
  rw [← List.append_assoc] at h
  obtain ⟨hfront, hlast⟩ := List.append_inj' h rfl
  exact ⟨ys, by rw [hlast], hfront⟩

theorem joins_singleton {k : Context} {c : Char} {rest : List Char}
    (h : rest = [] ∨ (k.step c rest.head?).2 = false) :
    Joins k [c] rest ∧ k.run [c] = (k.step c rest.head?).1 := by
  rcases h with rfl | h
  · exact ⟨by simp [Joins, trace], rfl⟩
  · cases rest with
    | nil => exact ⟨by simp [Joins, trace], rfl⟩
    | cons d rest =>
      have hrun : k.run [c] = (k.step c (some d)).1 :=
        congrArg Prod.fst (Context.step_none_of_narrow h)
      have hstep : trace k [c] = [⟨k, [c], (k.step c (some d)).1⟩] := by
        rw [trace, Context.step_none_of_narrow h]
      refine ⟨?_, hrun⟩
      rw [Joins, hrun, hstep]
      exact trace_cons_of_narrow h

theorem not_wordAt_of_last {cs front head word : List Char} {c : Char} (hc : isWordChar c = false)
    (h : front ++ [c] = head ++ word) : ¬WordAt cs head word := by
  intro hword
  obtain ⟨ys, rfl, -⟩ := eq_concat_of_append h hword.word_ne_nil
  have hlast := hword.chars c (by simp)
  rw [hc] at hlast
  exact absurd hlast (by decide)

theorem not_asyncBefore_of_last {cs front : List Char} {c : Char} (hc : isWordChar c = false)
    (hblank : isBlank c = false) : ¬AsyncBefore cs (front ++ [c]) := by
  rintro ⟨head, gap, h, hasync⟩
  rcases List.eq_nil_or_concat' gap with rfl | ⟨gap, d, rfl⟩
  · exact not_wordAt_of_last hc (by rw [h, List.append_nil]) hasync.wordAt
  · rw [← List.append_assoc, ← List.append_assoc] at h
    obtain ⟨-, hd⟩ := List.append_inj' h rfl
    obtain rfl : c = d := by simpa using hd
    have hlast := hasync.blank c (by simp)
    rw [hblank] at hlast
    exact absurd hlast (by decide)

/-- Where a word is read to its end, the text ends in `async` only if it is this word. -/
theorem eq_asyncWord_of_asyncBefore {cs front word : List Char}
    (hapart : front.getLast?.any Identifier.isContinue = false) (hword : ∀ c ∈ word, isWordChar c = true)
    (hne : word ≠ []) (h : AsyncBefore cs (front ++ word)) : word = asyncWord := by
  obtain ⟨head, gap, happ, hasync⟩ := h
  have hgap : gap = [] := by
    by_contra hgap
    have hlast := congrArg List.getLast? happ
    rw [List.getLast?_append_of_ne_nil _ hne, List.getLast?_append_of_ne_nil _ (by simp [hgap]),
      List.getLast?_append_of_ne_nil _ hgap, List.getLast?_eq_some_getLast hne] at hlast
    have hchar := isBlank_of_isWordChar (hword _ (List.getLast_mem hne))
    rw [hasync.blank _ (List.mem_of_getLast? hlast.symm)] at hchar
    exact absurd hchar (by decide)
  rw [hgap, List.append_nil] at happ
  -- Both words reach back to a character that no identifier goes on from.
  have hends {xs ys : List Char} (hxs : (xs ++ ys).getLast?.any Identifier.isContinue = false)
      (hys : ∀ c ∈ ys, isWordChar c = true) : ys = [] := by
    by_contra hys'
    rw [List.getLast?_append_of_ne_nil _ hys', List.getLast?_eq_some_getLast hys'] at hxs
    have hchar := isContinue_of_isWordChar (hys _ (List.getLast_mem hys'))
    simp [hchar] at hxs
  rcases List.append_eq_append_iff.mp happ with ⟨more, rfl, hmore⟩ | ⟨more, rfl, hmore⟩
  · have hnil := hends hasync.apart fun c hc => hword c (hmore ▸ List.mem_append_left _ hc)
    rw [hmore, hnil, List.nil_append]
  · have hchars : ∀ c ∈ asyncWord, isWordChar c = true := by decide
    have hnil := hends hapart fun c hc => hchars c (hmore ▸ List.mem_append_left _ hc)
    rw [hmore, hnil, List.nil_append]

/-! ## What a scan remembers -/

/-- The stage is reached at the end of a front of the text. A word at the end of the front is read to its
end. The word `async` is pending where a sigil may come next and the front ends in it, and nothing but
this word and the blanks behind it is taken back. -/
structure Tracks (place : Nat) (cs front : List Char) (t : Stage) : Prop where
  reads : Reads cs front t.state.context t.rest
  place : t.place = place + front.length
  joined : t.state.joined = front.getLast?.any Identifier.isContinue
  word : ∀ head word, front = head ++ word → WordAt cs head word →
    ∀ c ∈ t.rest.head?, isWordChar c = false
  pending : AsyncBefore cs front → (skipBlanks t.rest).head? = some sigil →
    t.state.pending.isSome = true
  held : ∀ offset ∈ t.state.pending, ∃ head gap kept, front = head ++ (asyncWord ++ gap) ∧
    AsyncAt cs head gap ∧ t.state.done.output = kept ++ (asyncWord ++ gap) ∧ offset = byteLength kept

theorem tracks_begin (place : Nat) (cs : List Char) : Tracks place cs [] (.begin place cs) where
  reads := .refl cs
  place := rfl
  joined := rfl
  word head word h hword := absurd (List.append_eq_nil_iff.mp h.symm).2 hword.word_ne_nil
  pending := by
    rintro ⟨head, gap, h, -⟩
    simp [asyncWord] at h
  held := by simp [Stage.begin, State.initial]

namespace Tracks
variable {place p : Nat} {cs front rest after : List Char} {σ : State} {c : Char}

theorem place_append (h : Tracks place cs front ⟨p, σ, rest⟩) (text : List Char) :
    p + text.length = place + (front ++ text).length := by
  rw [List.length_append, ← Nat.add_assoc]
  exact congrArg (· + text.length) h.place

theorem copySigil (h : Tracks place cs front ⟨p, σ, sigil :: rest⟩) (hcode : σ.context.isCode = true) :
    Tracks place cs (front ++ [sigil]) ⟨p + 1, σ.copySigil p, rest⟩ := by
  have hk : σ.context = .start := h.reads.settled hcode
  have hq : Quiet [sigil] := Quiet.cons isQuiet_sigil quiet_nil
  have hreads : Reads cs (front ++ [sigil]) (σ.context.run [sigil]) rest :=
    h.reads.append (by rw [hk]; exact hq.joins rest)
  have hlast : isWordChar sigil = false := by decide
  rw [hk, hq.run, ← hk] at hreads
  exact
    { reads := hreads
      place := h.place_append [sigil]
      joined := by simp [State.copySigil, isContinue_sigil]
      word := fun head word happ hword => absurd hword (not_wordAt_of_last hlast happ)
      pending := fun hasync => absurd hasync (not_asyncBefore_of_last hlast (by decide))
      held := by simp [State.copySigil] }

theorem copyWord {word : List Char} (h : Tracks place cs front ⟨p, σ, c :: rest⟩)
    (hcode : σ.context.isCode = true) (hc : c ≠ sigil)
    (hw : word? σ.joined (c :: rest) = some (word, after)) :
    Tracks place cs (front ++ word) ⟨p + word.length, σ.copyWord word, after⟩ := by
  have hk : σ.context = .start := h.reads.settled hcode
  obtain ⟨hjoined, hstart, hword, hafter⟩ := word?_spec hw
  have happ := (word?_append hw).1
  have hapart : front.getLast?.any Identifier.isContinue = false := h.joined ▸ hjoined
  have hchars : ∀ d ∈ word, isWordChar d = true := by
    rw [hword]
    have hhead : isWordChar c = true := by
      simp [isWordChar, hc, Identifier.isContinue_of_isStart hstart]
    exact List.forall_mem_cons.mpr ⟨hhead, fun d hd => List.mem_takeWhile_imp hd⟩
  have hne : word ≠ [] := by rw [hword]; exact List.cons_ne_nil _ _
  have hq : Quiet word := fun d hd => isQuiet_of_isContinue (isContinue_of_isWordChar (hchars d hd))
  have hreads : Reads cs front .start (word ++ after) := by rw [← happ, ← hk]; exact h.reads
  have hnext := hreads.append (hq.joins after)
  rw [hq.run, ← hk] at hnext
  refine
    { reads := hnext
      place := h.place_append word
      joined := ?_
      word := ?_
      pending := ?_
      held := fun offset hoffset => ?_ }
  · rw [List.getLast?_append_of_ne_nil _ hne]
    rfl
  · intro head last _ _ d hd
    have hstop := List.head?_dropWhile_not isWordChar rest
    rw [← hafter] at hstop
    rw [show after.head? = some d from hd] at hstop
    exact hstop
  · intro hasync _
    rw [State.copyWord, eq_asyncWord_of_asyncBefore hapart hchars hne hasync]
    rfl
  · -- Only the word `async` is held, from where it starts in the output, and no blank follows it yet.
    have hasync : word = asyncWord ∧ byteLength σ.done.output = offset := by
      simpa [State.copyWord, State.copy] using hoffset
    obtain ⟨rfl, rfl⟩ := hasync
    refine ⟨front, [], σ.done.output, by simp, ⟨hapart, by simp, fun n hn hlt => ?_⟩, ?_, rfl⟩
    · rw [List.append_nil] at hlt
      exact hreads.codeAt_of_quiet hq hn hlt
    · simp [State.copyWord, State.copy, append_eq]

/-- No word ends in a character that is read over and starts no word. -/
theorem not_wordAt (h : Tracks place cs front ⟨p, σ, c :: rest⟩)
    (hw : (if σ.context.isCode then word? σ.joined (c :: rest) else none) = none) {head word : List Char}
    (happ : front ++ [c] = head ++ word) : ¬WordAt cs head word := by
  intro hword
  obtain ⟨ys, rfl, hfront⟩ := eq_concat_of_append happ hword.word_ne_nil
  have hlength : front.length = head.length + ys.length := by rw [hfront, List.length_append]
  have hcode : σ.context.isCode = true :=
    (h.reads.codeAt (List.cons_ne_nil _ _)).mp (hword.code _ (by omega) (by simp; omega))
  have hchar : isWordChar c = true := hword.chars c (by simp)
  cases ys with
  | nil =>
    rw [List.append_nil] at hfront
    have hjoined : σ.joined = false := h.joined.trans (by rw [hfront]; exact hword.apart)
    have hstart : Identifier.isStart c = true := by simpa using hword.start
    simp [hcode, word?, hjoined, hstart] at hw
  | cons d ys =>
    have hword' : WordAt cs head (d :: ys) :=
      ⟨hword.apart, hword.start, fun x hx => hword.chars x (List.mem_append_left _ hx),
        fun n hn hlt => hword.code n hn (by rw [List.length_append]; omega)⟩
    have hstop := h.word head _ hfront hword' c rfl
    rw [hchar] at hstop
    exact absurd hstop (by decide)

/-- Over a blank in code the front ends in the word `async` if and only if it did so before. -/
theorem asyncBefore_of_concat (h : Tracks place cs front ⟨p, σ, c :: rest⟩)
    (hw : (if σ.context.isCode then word? σ.joined (c :: rest) else none) = none)
    (hasync : AsyncBefore cs (front ++ [c])) :
    AsyncBefore cs front ∧ isBlank c = true ∧ σ.context.isCode = true := by
  obtain ⟨head, gap, happ, hasync⟩ := hasync
  rcases List.eq_nil_or_concat' gap with rfl | ⟨gap, d, rfl⟩
  · exact absurd hasync.wordAt (h.not_wordAt hw (by rw [happ, List.append_nil]))
  · rw [← List.append_assoc asyncWord, ← List.append_assoc head] at happ
    obtain ⟨rfl, hd⟩ := List.append_inj' happ rfl
    obtain rfl : c = d := by simpa using hd
    obtain ⟨hbefore, hblank, hcode⟩ := hasync.of_concat
    exact ⟨⟨head, gap, rfl, hbefore⟩, hblank, (h.reads.codeAt (List.cons_ne_nil _ _)).mp hcode⟩

theorem copyNarrow (h : Tracks place cs front ⟨p, σ, c :: rest⟩)
    (hw : (if σ.context.isCode then word? σ.joined (c :: rest) else none) = none)
    (hn : rest = [] ∨ (σ.context.step c rest.head?).2 = false) :
    Tracks place cs (front ++ [c]) ⟨p + 1, σ.copyStep c [c] (σ.context.step c rest.head?).1, rest⟩ := by
  obtain ⟨hjoins, hrun⟩ := joins_singleton hn
  have hreads : Reads cs (front ++ [c]) (σ.context.run [c]) rest := h.reads.append hjoins
  rw [hrun] at hreads
  refine
    { reads := hreads
      place := h.place_append [c]
      joined := by simp [State.copyStep, State.copy]
      word := fun head word happ hword => absurd hword (h.not_wordAt hw happ)
      pending := fun hasync hsigil => ?_
      held := fun offset hoffset => ?_ }
  · obtain ⟨hbefore, hblank, hcode⟩ := h.asyncBefore_of_concat hw hasync
    have hpending : σ.pendingAfter c = σ.pending := by simp [State.pendingAfter, hcode, hblank]
    have hskip : skipBlanks (c :: rest) = skipBlanks rest := List.dropWhile_cons_of_pos hblank
    change (σ.pendingAfter c).isSome = true
    rw [hpending]
    exact h.pending hbefore (by rw [hskip]; exact hsigil)
  · change offset ∈ σ.pendingAfter c at hoffset
    have hne : σ.pendingAfter c ≠ none := by
      intro hnone
      simp [hnone] at hoffset
    obtain ⟨⟨hcode, hblank⟩, hpending⟩ := pendingAfter_of_ne_none hne
    obtain ⟨head, gap, kept, rfl, hasync, houtput, rfl⟩ := h.held offset (hpending ▸ hoffset)
    have hcodeAt := (h.reads.codeAt (List.cons_ne_nil _ _)).mpr hcode
    refine ⟨head, gap ++ [c], kept, by simp, hasync.concat hblank hcodeAt, ?_, rfl⟩
    change σ.done.output ++ [c] = _
    rw [show σ.done.output = _ from houtput]
    simp

theorem copyWide {d : Char} (h : Tracks place cs front ⟨p, σ, c :: d :: rest⟩)
    (hw : (σ.context.step c (some d)).2 = true) :
    Tracks place cs (front ++ [c, d])
      ⟨p + 2, σ.copyStep c [c, d] (σ.context.step c (some d)).1, rest⟩ := by
  have hnot := h.reads.not_codeAt_of_wide hw
  -- The second character of a pair starts no step, so no word and no blank in code lies over it.
  have hpending : σ.pendingAfter c = none := by
    by_contra hpending
    obtain ⟨⟨hcode, hblank⟩, -⟩ := pendingAfter_of_ne_none hpending
    rw [h.reads.settled hcode,
      Context.step_start_of_isQuiet (isQuiet_of_isIdle (isIdle_of_isBlank hblank))] at hw
    exact absurd hw (by decide)
  have hrun : σ.context.run [c, d] = (σ.context.step c (some d)).1 := Context.run_cons_of_wide hw
  have hj : Joins σ.context [c, d] rest := by
    rw [Joins, hrun, trace_cons_of_wide hw]
    exact trace_cons_of_wide hw
  have hreads : Reads cs (front ++ [c, d]) (σ.context.run [c, d]) rest := h.reads.append hj
  rw [hrun] at hreads
  refine
    { reads := hreads
      place := h.place_append [c, d]
      joined := by simp [State.copyStep, State.copy]
      word := fun head word happ hword => ?_
      pending := ?_
      held := fun offset hoffset => ?_ }
  · have hpos := List.length_pos_iff.mpr hword.word_ne_nil
    have hlength := congrArg List.length happ
    simp only [List.length_append, List.length_cons, List.length_nil] at hlength
    exact absurd (hword.code (front.length + 1) (by omega) (by omega)) hnot
  · rintro ⟨head, gap, happ, hasync⟩
    have hlength := congrArg List.length happ
    have hcode := hasync.code (front.length + 1)
    simp only [List.length_append, List.length_cons, List.length_nil, asyncWord] at hlength hcode
    exact absurd (hcode (by omega) (by omega)) hnot
  · change offset ∈ σ.pendingAfter c at hoffset
    simp [hpending] at hoffset

/-- A literal that the body of a shorthand leaves open hides no sigil: only blanks follow. -/
theorem emit (h : Tracks place cs front ⟨p, σ, sigil :: rest⟩) (hcode : σ.context.isCode = true)
    {s : Shorthand} (hr : Shorthand.read? rest = some (s, after)) (w : Keyword) (params body : Scan) :
    Tracks place cs (front ++ sigil :: s.span)
        ⟨p + 1 + s.span.length, σ.emit w p s params body, after⟩ ∨
      ∀ c ∈ after, isBlank c = true := by
  have hspans := Shorthand.read?_spans hr
  obtain rfl := Shorthand.read?_append hr
  have hk : σ.context = .start := h.reads.settled hcode
  rcases hspans.body_ends with hbody | ⟨hblank, -⟩
  swap
  · exact .inr hblank
  left
  obtain ⟨hjoins, hrun⟩ := hspans.joins hbody
  have hreads : Reads cs front .start (sigil :: s.span ++ after) := by
    rw [← hk]
    exact h.reads
  have hnext : Reads cs (front ++ sigil :: s.span) (Context.start.run (sigil :: s.span)) after := by
    refine hreads.append ?_
    rw [Joins, List.cons_append, trace_cons_of_isQuiet isQuiet_sigil, hjoins,
      trace_cons_of_isQuiet isQuiet_sigil, Context.run_cons_of_isQuiet isQuiet_sigil]
    rfl
  rw [Context.run_cons_of_isQuiet isQuiet_sigil, hrun, ← hk] at hnext
  -- What the front ends in is what the shorthand ends in, so no word of the front reaches over it.
  have hlast : (front ++ sigil :: s.span).getLast? = s.span.getLast? := by
    rw [List.getLast?_append_of_ne_nil _ (List.cons_ne_nil _ _),
      List.getLast?_cons_of_ne_nil hspans.span_ne_nil]
  have hfollowed := hspans.followed hbody
  have hbrace (hb : s.span.getLast? = some '}') : ∃ ys, front ++ sigil :: s.span = ys ++ ['}'] := by
    obtain ⟨ys, hys⟩ := List.getLast?_eq_some_iff.mp (hlast.trans hb)
    exact ⟨ys, hys⟩
  refine
    { reads := hnext
      place := ?_
      joined := ?_
      word := fun head word happ hword c hc => ?_
      pending := fun hasync hsigil => ?_
      held := by simp [State.emit] }
  · rw [Nat.add_right_comm]
    exact h.place_append (sigil :: s.span)
  · rw [hlast]
    rfl
  · rcases hfollowed with hb | hnone
    · obtain ⟨ys, hys⟩ := hbrace hb
      exact absurd hword (not_wordAt_of_last (by decide) (hys ▸ happ))
    · by_contra hchar
      have hchar : isWordChar c = true := by simpa using hchar
      obtain ⟨more, rfl⟩ := List.head?_eq_some_iff.mp hc
      have hstop := hnone c (by rw [skipBlanks_cons (isBlank_of_isWordChar hchar)]; rfl)
      rw [isContinue_of_isWordChar hchar] at hstop
      exact absurd hstop (by decide)
  · rcases hfollowed with hb | hnone
    · obtain ⟨ys, hys⟩ := hbrace hb
      rw [hys] at hasync
      exact absurd hasync (not_asyncBefore_of_last (by decide) (by decide))
    · exact absurd isContinue_sigil (by simp [hnone sigil hsigil])

end Tracks

variable {w : Keyword} {place : Nat} {cs : List Char} {t t' : Stage}

/-- One round goes on with the text, unless only blanks are left. -/
theorem Tracks.of_round? {front : List Char} (h : Tracks place cs front t)
    (hround : round? w t.place t.state t.rest = some t') :
    (∃ front, Tracks place cs front t') ∨ ∀ c ∈ t'.rest, isBlank c = true := by
  obtain ⟨p, σ, cs'⟩ := t
  cases cs' with
  | nil => simp [round?] at hround
  | cons c rest =>
    dsimp only at hround
    rw [round?] at hround
    split at hround
    · rename_i hs
      simp only [Bool.and_eq_true, decide_eq_true_eq] at hs
      obtain ⟨hcode, rfl⟩ := hs
      split at hround
      · rename_i s after hr
        obtain rfl := Option.some.inj hround
        exact (h.emit hcode hr w _ _).imp (fun h => ⟨_, h⟩) id
      · obtain rfl := Option.some.inj hround
        exact .inl ⟨_, h.copySigil hcode⟩
    · rename_i hs
      split at hround
      · rename_i word after hw
        obtain ⟨hcode, hw⟩ := Option.ite_none_right_eq_some.mp hw
        obtain rfl := Option.some.inj hround
        exact .inl ⟨_, h.copyWord hcode (by simpa [hcode] using hs) hw⟩
      · rename_i hw
        obtain rfl := Option.some.inj hround
        left
        cases rest with
        | nil => exact ⟨_, h.copyNarrow hw (.inl rfl)⟩
        | cons d more =>
          rw [stepOver]
          split
          · rename_i hwide
            exact ⟨_, h.copyWide hwide⟩
          · rename_i hwide
            exact ⟨_, h.copyNarrow hw (.inr (by simpa using hwide))⟩

theorem Tracks.of_rounds? {n : Nat}
    (h : (∃ front, Tracks place cs front t) ∨ ∀ c ∈ t.rest, isBlank c = true)
    (hrounds : rounds? w n t = some t') :
    (∃ front, Tracks place cs front t') ∨ ∀ c ∈ t'.rest, isBlank c = true := by
  refine rounds_induction
    (motive := fun u => (∃ front, Tracks place cs front u) ∨ ∀ c ∈ u.rest, isBlank c = true) h ?_ hrounds
  intro u u' hu hround
  rcases hu with ⟨front, hu⟩ | hu
  · exact hu.of_round? hround
  · exact .inr fun c hc => hu c ((suffix_of_round? hround).subset hc)

theorem output_emit (w : Keyword) (σ : State) (p m n : Nat) (s : Shorthand) :
    (σ.emit w p s (run w m .initial s.params) (run w n .initial s.body.text)).done.output =
      σ.cut ++ alone w σ.pending.isSome s := by
  rw [alone_eq, run_initial, run_initial]
  rfl

/-- What is taken back is the word `async` and the blanks behind it. -/
theorem Tracks.cut_eq {front : List Char} (h : Tracks place cs front t)
    (hpending : t.state.pending.isSome = true) :
    ∃ head gap, front = head ++ (asyncWord ++ gap) ∧ AsyncAt cs head gap ∧
      t.state.done.output = t.state.cut ++ (asyncWord ++ gap) := by
  obtain ⟨offset, hoffset⟩ := Option.isSome_iff_exists.mp hpending
  obtain ⟨head, gap, kept, hfront, hasync, houtput, rfl⟩ := h.held offset hoffset
  refine ⟨head, gap, hfront, hasync, ?_⟩
  rw [State.cut, hoffset, houtput]
  simp [takeBytes_append]

/-- At a sigil a scan stands behind a front of the text. -/
theorem exists_tracks {n : Nat} {rest : List Char} (h : rounds? w n (.begin place cs) = some t)
    (hrest : t.rest = sigil :: rest) : ∃ front, Tracks place cs front t := by
  refine (Tracks.of_rounds? (.inl ⟨[], tracks_begin place cs⟩) h).resolve_right fun hblank => ?_
  exact absurd (hblank sigil (hrest ▸ List.mem_cons_self)) (by decide)

/-- At a sigil something is pending just if the word `async` stands before it. -/
theorem Tracks.pending_iff {front rest : List Char} (h : Tracks place cs front t) (hrest : t.rest = sigil :: rest) :
    t.state.pending.isSome = true ↔ AsyncBefore cs front := by
  constructor
  · intro hpending
    obtain ⟨head, gap, hfront, hasync, -⟩ := h.cut_eq hpending
    exact ⟨head, gap, hfront, hasync⟩
  · intro hasync
    exact h.pending hasync (by rw [hrest, skipBlanks_cons (by decide)]; rfl)

/-- What a round does with a sigil in code, where the scan stands behind a front of the text. The
shorthand there is asynchronous if and only if the front ends in the word `async` and blanks, in code and
behind no identifier. Then just this word and these blanks are gone from what is put out; else, and where
no shorthand starts, all of it stays. -/
structure SigilRound (w : Keyword) (place : Nat) (cs front rest : List Char) (t t' : Stage) : Prop where
  source : cs = front ++ sigil :: rest
  round : round? w t.place t.state t.rest = some t'
  finish : run w place .initial cs = run w t'.place t'.state t'.rest
  place : t.place = place + front.length
  leftover : Shorthand.read? rest = none → t'.state.done.output = t.state.done.output ++ [sigil]
  shorthand : ∀ s after, Shorthand.read? rest = some (s, after) → ∃ isAsync kept,
    (isAsync = true ↔ AsyncBefore cs front) ∧ t'.rest = after ∧
    ⟨t.place, .shorthand isAsync s⟩ ∈ t'.state.done.attempts ∧
    t'.state.done.output = kept ++ alone w isAsync s ∧
    (isAsync = true → ∃ head gap, front = head ++ (asyncWord ++ gap) ∧ AsyncAt cs head gap ∧
      t.state.done.output = kept ++ (asyncWord ++ gap)) ∧
    (isAsync = false → t.state.done.output = kept)

theorem exists_sigilRound {n : Nat} {rest : List Char} (h : rounds? w n (.begin place cs) = some t)
    (hcode : t.state.context.isCode = true) (hrest : t.rest = sigil :: rest) :
    ∃ front t', SigilRound w place cs front rest t t' := by
  obtain ⟨front, htracks⟩ := exists_tracks h hrest
  have hsome : (round? w t.place t.state t.rest).isSome = true :=
    isSome_round? (by rw [hrest]; exact List.cons_ne_nil _ _)
  obtain ⟨t', ht'⟩ := Option.isSome_iff_exists.mp hsome
  have hfinish : run w place .initial cs = run w t'.place t'.state t'.rest :=
    (run_of_rounds? h).trans (run_of_round? ht')
  refine ⟨front, t', hrest ▸ htracks.reads.source, ht', hfinish, htracks.place, ?_, ?_⟩
  · intro hr
    rw [hrest, round?, if_pos (by simp [hcode]), hr] at ht'
    obtain rfl := Option.some.inj ht'
    simp [State.copySigil, append_eq]
  · intro s after hr
    rw [hrest, round?, if_pos (by simp [hcode]), hr] at ht'
    obtain rfl := Option.some.inj ht'
    refine ⟨t.state.pending.isSome, t.state.cut, htracks.pending_iff hrest, rfl, by simp [State.emit],
      output_emit w t.state _ _ _ s, htracks.cut_eq, ?_⟩
    intro hnone
    have hpending : t.state.pending = none := by simpa using hnone
    rw [State.cut, hpending]

/-- A sigil that starts no shorthand, then an asynchronous one. -/
theorem exists_sigilRound_of_leftover : ∃ front t',
    SigilRound .const 0 "ƒ( async  ƒ f(a) b".toList front " f(a) b".toList
      ⟨10, ⟨.start, false, some 4, ⟨"ƒ( async  ".toList, [⟨0, .leftover⟩]⟩⟩, "ƒ f(a) b".toList⟩ t' :=
  exists_sigilRound (n := 6) (by decide +kernel) rfl (by decide +kernel)

end Scan
end Florin
