import Florin.Site
import Florin.Proofs.Lexical.Nested

/-! # Code inside an interpolation

An interpolation reads the text in it as code does, above the template that it belongs to, with one
difference: it knows no comments. So a text that is closed as code, with comments that hold no quotes,
backticks and braces, leaves the interpolation as it was, and the next brace closes it.
-/
namespace Florin.Lexical

/-- What an interpolation does not read over: quotes, backticks and braces. -/
def delimiters : List Char := ['\'', '"', backtick, '{', '}']

/-- The comments in code hold nothing but what an interpolation reads over. -/
def PlainComments (k : Context) (cs : List Char) : Prop :=
  ∀ s ∈ trace k cs, s.before.region.isComment = true → ∀ c ∈ s.text, c ∉ delimiters

instance (k : Context) (cs : List Char) : Decidable (PlainComments k cs) :=
  inferInstanceAs (Decidable (∀ s ∈ trace k cs, s.before.region.isComment = true →
    ∀ c ∈ s.text, c ∉ delimiters))

/-! ## The context above a template -/

namespace Context

/-- The context of a text read inside an interpolation, given the one of the same text on its own:
so many braces are open in the interpolation, and the outer templates around its own. -/
def above (depth : Nat) (outer : List Nat) : Context → Context
  | ⟨.code, _⟩ | ⟨.lineComment, _⟩ | ⟨.blockComment, _⟩ => ⟨.interpolation, depth :: outer⟩
  | ⟨r, templates⟩ => ⟨r, templates ++ depth :: outer⟩

section Above
variable {depth depth' : Nat} {outer : List Nat} {k : Context} {c : Char} {next : Option Char}

theorem above_of_isOuter (h : k.region.isOuter = true) :
    k.above depth outer = ⟨.interpolation, depth :: outer⟩ := by
  obtain ⟨region, templates⟩ := k
  cases region <;> first | rfl | simp [Region.isOuter] at h

theorem isCode_above (depth : Nat) (outer : List Nat) (k : Context) :
    (k.above depth outer).isCode = false := by
  obtain ⟨region, templates⟩ := k
  cases region <;> rfl

/-- The text of the template around the interpolation is not reached. -/
theorem above_ne_template (hk : k.Coherent) (depth : Nat) (outer : List Nat) :
    k.above depth outer ≠ ⟨.template, depth' :: outer⟩ := by
  obtain ⟨region, templates⟩ := k
  intro h
  cases region
  case template =>
    obtain ⟨d, ts, rfl⟩ := List.exists_cons_of_ne_nil (hk.inner rfl)
    have hlength := congrArg (fun k => k.templates.length) h
    simp only [above, List.length_append, List.length_cons] at hlength
    omega
  all_goals exact absurd (congrArg region h) (by simp [above])

theorem above_leave (depth : Nat) (outer : List Nat) (k : Context) :
    k.leave.above depth outer = leave ⟨k.region, k.templates ++ depth :: outer⟩ := by
  obtain ⟨region, templates⟩ := k
  cases templates <;> rfl

/-- Inside a literal nothing depends on what is open around it. -/
theorem step_above_of_literal (hk : k.Coherent) (h : k.region.isOuter = false) (c : Char)
    (next : Option Char) :
    (k.above depth outer).step c next = ((k.step c next).1.above depth outer, (k.step c next).2) := by
  have hleave (k : Context) : (leave ⟨k.region, k.templates ++ depth :: outer⟩, false) =
      (k.leave.above depth outer, false) := by rw [above_leave]
  obtain ⟨region, templates⟩ := k
  cases region
  case code => simp [Region.isOuter] at h
  case lineComment => simp [Region.isOuter] at h
  case blockComment => simp [Region.isOuter] at h
  case singleQuoted =>
    simp only [above, step, stepQuoted]
    split_ifs <;> first | rfl | exact hleave ⟨.singleQuoted, templates⟩
  case doubleQuoted =>
    simp only [above, step, stepQuoted]
    split_ifs <;> first | rfl | exact hleave ⟨.doubleQuoted, templates⟩
  case template =>
    obtain ⟨d, ts, rfl⟩ := List.exists_cons_of_ne_nil (hk.inner rfl)
    simp only [above, step, stepTemplate]
    split_ifs <;> first | rfl | exact hleave ⟨.template, ts⟩
  case interpolation =>
    obtain ⟨d, ts, rfl⟩ := List.exists_cons_of_ne_nil (hk.inner rfl)
    simp only [above, step, stepInterpolation]
    split_ifs <;> first | rfl | (cases d <;> rfl)

/-- An interpolation reads over what is no delimiter. -/
theorem step_interpolation (hc : c ∉ delimiters) (ts : List Nat) (next : Option Char) :
    step ⟨.interpolation, ts⟩ c next = (⟨.interpolation, ts⟩, false) := by
  simp only [delimiters, List.mem_cons, List.not_mem_nil, or_false, not_or] at hc
  simp [step, stepInterpolation, hc]

/-- In code a quote, a backtick or a brace does the same as in an interpolation. -/
theorem step_above_of_code (hn : (start.step c next).2 = false) {s : Step} (hs : s.before = start)
    (hc : s.text.head? = some c) (hd : Bracket.curly.inside? depth s = some depth') :
    (start.above depth outer).step c next = ((start.step c next).1.above depth' outer, false) := by
  have hcode (b : Char) : s.isCodeChar b = decide (c = b) := by
    simp [Step.isCodeChar, hs, hc, isCode, start]
  simp only [Bracket.inside?, Bracket.depthAfter, hcode, Bracket.opener, Bracket.closer] at hd
  by_cases hopen : c = '{'
  · subst hopen
    obtain rfl : depth + 1 = depth' := by simpa using hd
    rfl
  by_cases hclose : c = '}'
  · subst hclose
    cases depth with
    | zero => simp at hd
    | succ depth =>
      obtain rfl : depth = depth' := by simpa using hd
      rfl
  obtain rfl : depth = depth' := by simpa [hopen, hclose] using hd
  simp only [above, step, start, stepCode, stepInterpolation, hopen, hclose, if_false] at hn ⊢
  split_ifs at hn ⊢ <;> rfl

/-- A step on its own and above a template, unless it reads the two characters of a comment. -/
theorem step_above (hk : k.Coherent) (outer : List Nat) (next : Option Char)
    (hn : k.region.isOuter = true → (k.step c next).2 = false)
    (hplain : k.region.isComment = true → c ∉ delimiters) {s : Step} (hs : s.before = k)
    (hc : s.text.head? = some c) (hd : Bracket.curly.inside? depth s = some depth') :
    (k.above depth outer).step c next =
      ((k.step c next).1.above depth' outer, (k.step c next).2) := by
  cases houter : k.region.isOuter with
  | false =>
    have hcode : s.before.isCode = false := by
      rw [hs]
      simpa [isCode] using fun h : k.region = .code => by simp [h, Region.isOuter] at houter
    obtain rfl : depth = depth' := by
      simpa [Bracket.inside?, Bracket.depthAfter, Step.isCodeChar, hcode] using hd
    exact step_above_of_literal hk houter c next
  | true =>
    rw [hn houter]
    cases hcomment : k.region.isComment with
    | true =>
      have hcode : s.before.isCode = false := by
        rw [hs]
        simpa [isCode] using fun h : k.region = .code => by simp [h, Region.isComment] at hcomment
      obtain rfl : depth = depth' := by
        simpa [Bracket.inside?, Bracket.depthAfter, Step.isCodeChar, hcode] using hd
      rw [above_of_isOuter houter, above_of_isOuter (isOuter_step_of_isComment hk hcomment c next)]
      exact step_interpolation (hplain hcomment) _ next
    | false =>
      obtain rfl := eq_start_of_isOuter hk houter (by simp [hcomment])
      exact step_above_of_code (hn houter) hs hc hd

/-- The two characters that open or close a comment are read over one by one. -/
theorem Change.wide_of_isOuter {k' : Context} {d : Char} (h : Change k c (some d) true k') (hk : k.Coherent)
    (ho : k.region.isOuter = true) : c ∉ delimiters ∧ d ∉ delimiters ∧ k'.region.isOuter = true := by
  cases h with
  | escape hquote => cases hr : k.region <;> rw [hr] at hquote ho <;> cases hquote <;> cases ho
  | openLineComment _ hc hnext | openBlockComment _ hc hnext =>
    obtain rfl := hc
    obtain rfl := Option.some.inj hnext
    exact ⟨by decide, by decide, rfl⟩
  | closeBlockComment _ hc hnext =>
    obtain rfl := hc
    obtain rfl := Option.some.inj hnext
    exact ⟨by decide, by decide, by simp [leave, enter, hk.outer ho, Region.isOuter]⟩
  | openInterpolation hr =>
    rw [hr] at ho
    cases ho

end Above

theorem narrow_of_isOuter {k : Context} (h : k.region.isOuter = true) (c : Char) :
    (k.step c none).2 = false := by
  rw [Bool.eq_false_iff]
  intro hw
  obtain ⟨-, hquote⟩ := (step_change_wide hw).quoted_of_wide
  cases hr : k.region <;> rw [hr] at h hquote <;> cases h <;> cases hquote

/-- The context is within the innermost interpolation above these templates. -/
def Within (outer : List Nat) (k : Context) : Prop :=
  ∃ k' n, Coherent k' ∧ k = k'.above n outer

theorem Within.isCode_eq_false {outer : List Nat} {k : Context} (h : k.Within outer) :
    k.isCode = false := by
  obtain ⟨k', n, -, rfl⟩ := h
  exact isCode_above n outer k'

theorem Within.ne_template {outer : List Nat} {k : Context} (h : k.Within outer) (depth : Nat) :
    k ≠ ⟨.template, depth :: outer⟩ := by
  obtain ⟨k', n, hk, rfl⟩ := h
  exact above_ne_template hk n outer

end Context

/-! ## Reading in an interpolation -/

theorem trace_interpolation {c : Char} (hc : c ∉ delimiters) (ts : List Nat) (cs : List Char) :
    trace ⟨.interpolation, ts⟩ (c :: cs) =
      ⟨⟨.interpolation, ts⟩, [c], ⟨.interpolation, ts⟩⟩ :: trace ⟨.interpolation, ts⟩ cs := by
  have hs := Context.step_interpolation hc ts cs.head?
  rw [trace_cons_of_narrow (congrArg Prod.snd hs), hs]

theorem Context.run_interpolation {c : Char} (hc : c ∉ delimiters) (ts : List Nat) (cs : List Char) :
    run ⟨.interpolation, ts⟩ (c :: cs) = run ⟨.interpolation, ts⟩ cs := by
  have hs := step_interpolation hc ts cs.head?
  rw [run_cons_of_narrow (congrArg Prod.snd hs), hs]

/-- A step that does the same above a template takes the same text. -/
theorem firstStep_above {k : Context} {depth mid : Nat} {outer : List Nat} {c : Char} {cs : List Char}
    (h : (k.above depth outer).step c cs.head? = ((k.step c cs.head?).1.above mid outer, (k.step c cs.head?).2)) :
    firstStep (k.above depth outer) c cs =
        ⟨k.above depth outer, (firstStep k c cs).text, (firstStep k c cs).after.above mid outer⟩ ∧
      behindStep (k.above depth outer) c cs = behindStep k c cs := by
  unfold firstStep behindStep
  rw [h]
  exact ⟨rfl, rfl⟩

/-- An interpolation reads on over both characters that open or close a comment, and is where the comment
leads to. -/
theorem above_of_wide {k : Context} (hk : k.Coherent) (houter : k.region.isOuter = true) {c d : Char}
    (hw : (k.step c (some d)).2 = true) (depth : Nat) (outer : List Nat) (cs : List Char) :
    trace (k.above depth outer) (c :: d :: cs) =
        ⟨⟨.interpolation, depth :: outer⟩, [c], ⟨.interpolation, depth :: outer⟩⟩ ::
          ⟨⟨.interpolation, depth :: outer⟩, [d], ⟨.interpolation, depth :: outer⟩⟩ ::
            trace ((k.step c (some d)).1.above depth outer) cs ∧
      (k.above depth outer).run (c :: d :: cs) = ((k.step c (some d)).1.above depth outer).run cs := by
  obtain ⟨hc, hd, hafter⟩ := (Context.step_change_wide hw).wide_of_isOuter hk houter
  rw [Context.above_of_isOuter houter, Context.above_of_isOuter hafter, trace_interpolation hc,
    trace_interpolation hd, Context.run_interpolation hc, Context.run_interpolation hd]
  exact ⟨rfl, rfl⟩

/-- A text whose comments are plain and whose braces in code stay within an interpolation leads, above
a context, to above the context that it leads to on its own. -/
theorem run_above {k : Context} (hk : k.Coherent) {cs : List Char} (hplain : PlainComments k cs)
    {depth depth' : Nat} (hfold : (trace k cs).foldlM Bracket.curly.inside? depth = some depth')
    (outer : List Nat) : (k.above depth outer).run cs = (k.run cs).above depth' outer ∧
      ∀ s ∈ trace (k.above depth outer) cs, s.before.Within outer ∧ s.after.Within outer := by
  induction k, cs using step_induction generalizing depth with
  | nil k =>
    obtain rfl := Option.some.inj hfold
    exact ⟨rfl, by simp [trace]⟩
  | cons k c cs ih =>
    rw [trace_cons] at hfold
    obtain ⟨mid, hd, hmid⟩ := Option.bind_eq_some_iff.mp hfold
    have hcoherent : (firstStep k c cs).after.Coherent := Context.step_coherent hk c cs.head?
    obtain ⟨hrun, hwithin⟩ := ih hcoherent
      (fun s hs => hplain s (by rw [trace_cons]; exact List.mem_cons_of_mem _ hs)) hmid
    -- A pair of the outer code is two steps in an interpolation; any other step is one in both.
    by_cases hpair : k.region.isOuter = true ∧ (k.step c cs.head?).2 = true
    · obtain ⟨houter, hw⟩ := hpair
      cases cs with
      | nil => exact absurd hw (by simp [Context.narrow_of_isOuter houter c])
      | cons d cs =>
        rw [List.head?_cons] at hw
        obtain ⟨hc, -, -⟩ := (Context.step_change_wide hw).wide_of_isOuter hk houter
        obtain rfl : depth = mid := by
          simp only [delimiters, List.mem_cons, not_or] at hc
          simpa [Bracket.inside?, Bracket.depthAfter, isCodeChar_firstStep, Bracket.opener, Bracket.closer, hc] using hd
        obtain ⟨htrace, hsame⟩ := above_of_wide hk houter hw depth outer cs
        have hinside : Context.Within outer ⟨.interpolation, depth :: outer⟩ :=
          ⟨.start, depth, Context.start_coherent, rfl⟩
        rw [firstStep_of_wide k c cs hw, behindStep, List.head?_cons, if_pos hw] at hrun hwithin
        rw [Context.run_cons_of_wide hw, htrace, hsame]
        exact ⟨hrun, List.forall_mem_cons.mpr
          ⟨⟨hinside, hinside⟩, List.forall_mem_cons.mpr ⟨⟨hinside, hinside⟩, hwithin⟩⟩⟩
    · have hc (h : k.region.isComment = true) : c ∉ delimiters :=
        hplain _ (by rw [trace_cons]; exact List.mem_cons_self) h c (List.mem_of_mem_head? (firstStep_head k c cs))
      have hstep := Context.step_above hk outer cs.head? (fun h => by simpa [h] using hpair) hc
        (firstStep_before k c cs) (firstStep_head k c cs) hd
      obtain ⟨hfirst, hbehind⟩ := firstStep_above hstep
      rw [Context.run_cons, Context.run_cons, trace_cons, hfirst, hbehind]
      exact ⟨hrun, List.forall_mem_cons.mpr ⟨⟨⟨k, depth, hk, rfl⟩, ⟨_, mid, hcoherent, rfl⟩⟩, hwithin⟩⟩

/-- Where a text ends in an interpolation, the next character is read on its own. -/
theorem Context.step_some_of_interpolation {k : Context} {c : Char}
    (hk : (k.step c none).1.region = .interpolation) (d : Char) :
    k.step c (some d) = ((k.step c none).1, false) :=
  step_some_of_not_quoted (by rw [hk]; rfl) (by rw [hk]; exact List.not_mem_nil)

theorem joins_of_interpolation {k : Context} {xs : List Char}
    (hk : (k.run xs).region = .interpolation) (ys : List Char) : Joins k xs ys :=
  joins_of_last (fun k => k.region = .interpolation) hk fun _ _ d _ _ hlast =>
    Context.step_some_of_interpolation hlast d

/-! ## A template with one interpolation -/

/-- The template literal of one interpolation. -/
def interpolated (cs : List Char) : List Char := backtick :: '$' :: '{' :: (cs ++ ['}', backtick])

/-- The step ends the interpolation of a template in code. -/
def Step.EndsInterpolation (s : Step) : Prop :=
  s.before = ⟨.interpolation, [0]⟩ ∧ s.after = ⟨.template, [0]⟩

section Interpolated
variable {cs : List Char}

theorem trace_interpolated (h : Bracket.curly.Closed cs) (hplain : PlainComments .start cs)
    (rest : List Char) : trace .start (interpolated cs ++ rest) =
      ⟨.start, [backtick], ⟨.template, [0]⟩⟩ ::
        ⟨⟨.template, [0]⟩, ['$', '{'], ⟨.interpolation, [0]⟩⟩ ::
          (trace ⟨.interpolation, [0]⟩ cs ++
            ⟨⟨.interpolation, [0]⟩, ['}'], ⟨.template, [0]⟩⟩ ::
              ⟨⟨.template, [0]⟩, [backtick], .start⟩ :: trace .start rest) := by
  have hrun : Context.run ⟨.interpolation, [0]⟩ cs = ⟨.interpolation, [0]⟩ := by
    have habove := (run_above Context.start_coherent hplain h.2 []).1
    rwa [h.1] at habove
  have hj : Joins ⟨.interpolation, [0]⟩ cs ('}' :: backtick :: rest) :=
    joins_of_interpolation (by rw [hrun]) _
  have hopen : interpolated cs ++ rest =
      backtick :: '$' :: '{' :: (cs ++ '}' :: backtick :: rest) := by simp [interpolated]
  rw [hopen, trace_cons_of_narrow rfl, trace_cons_of_wide rfl]
  refine congrArg (_ :: _ :: ·) ?_
  refine hj.trans ?_
  rw [hrun, trace_cons_of_narrow rfl, trace_cons_of_narrow rfl]
  rfl

theorem joins_interpolated (h : Bracket.curly.Closed cs) (hplain : PlainComments .start cs)
    (rest : List Char) : trace .start (interpolated cs ++ rest) =
      trace .start (interpolated cs) ++ trace .start rest := by
  have hnil := trace_interpolated h hplain []
  rw [List.append_nil] at hnil
  rw [hnil, trace_interpolated h hplain rest]
  simp [trace]

theorem isCodeChar_interpolated (h : Bracket.curly.Closed cs) (hplain : PlainComments .start cs) :
    ∀ s ∈ trace .start (interpolated cs), s.isCodeChar sigil = false := by
  intro s hs
  have hnil := trace_interpolated h hplain []
  rw [List.append_nil] at hnil
  rw [hnil] at hs
  simp only [List.mem_cons, List.mem_append, trace, List.not_mem_nil, or_false] at hs
  rcases hs with rfl | rfl | hs | rfl | rfl
  · decide
  · rfl
  · have hwithin := (run_above Context.start_coherent hplain h.2 []).2 s hs
    simp [Step.isCodeChar, hwithin.1.isCode_eq_false]
  · rfl
  · rfl

theorem run_interpolated (h : Bracket.curly.Closed cs) (hplain : PlainComments .start cs) :
    Context.start.run (interpolated cs) = .start := by
  have hnil := trace_interpolated h hplain []
  rw [List.append_nil] at hnil
  rw [Context.run, hnil]
  simp [trace]

/-- The brace behind the text ends the interpolation, and no brace before it does. -/
theorem interpolated_ends (h : Bracket.curly.Closed cs) (hplain : PlainComments .start cs) :
    ∃ front s back, trace .start (interpolated cs) = front ++ s :: back ∧
      spell front = backtick :: '$' :: '{' :: cs ∧ s.text = ['}'] ∧ s.EndsInterpolation ∧
        ∀ s' ∈ front, ¬s'.EndsInterpolation := by
  have hnil := trace_interpolated h hplain []
  rw [List.append_nil] at hnil
  refine ⟨_ :: _ :: trace ⟨.interpolation, [0]⟩ cs, _, _, hnil, by simp [spell_trace], rfl,
    ⟨rfl, rfl⟩, fun s hs hends => ?_⟩
  rcases List.mem_cons.mp hs with rfl | hs
  · exact absurd hends.1 (by decide)
  rcases List.mem_cons.mp hs with rfl | hs
  · exact absurd hends.1 (by decide)
  have hwithin := (run_above Context.start_coherent hplain h.2 []).2 s hs
  exact hwithin.2.ne_template 0 hends.2

end Interpolated

end Florin.Lexical

namespace Florin
open Lexical

namespace Site

/-- The site in a text that follows another one, which ends at the first site. -/
def behind (p q : Site) : Site :=
  if q.line = 1 then ⟨p.offset + q.offset, p.line, p.column + q.column - 1⟩
  else ⟨p.offset + q.offset, p.line + q.line - 1, q.column⟩

/-- Lines and columns count from one. -/
def Counted (p : Site) : Prop := 1 ≤ p.line ∧ 1 ≤ p.column

theorem start_counted : start.Counted := ⟨le_rfl, le_rfl⟩

theorem Counted.after {q : Site} (h : q.Counted) (c : Char) : (q.after c).Counted := by
  unfold Site.after
  split
  · exact ⟨Nat.le_add_left _ _, le_rfl⟩
  · exact ⟨h.1, Nat.le_add_left _ _⟩

theorem behind_after {q : Site} (h : q.Counted) (p : Site) (c : Char) :
    (p.behind q).after c = p.behind (q.after c) := by
  obtain ⟨hline, hcolumn⟩ := h
  unfold behind after
  split_ifs <;> simp_all <;> omega

theorem foldl_behind {q : Site} (h : q.Counted) (p : Site) (cs : List Char) :
    cs.foldl after (p.behind q) = p.behind (cs.foldl after q) ∧ (cs.foldl after q).Counted := by
  induction cs generalizing q with
  | nil => exact ⟨rfl, h⟩
  | cons c cs ih =>
    rw [List.foldl_cons, List.foldl_cons, behind_after h]
    exact ih (h.after c)

theorem behind_start (p : Site) : p.behind start = p := by simp [behind, start]

theorem ofSteps_behind {q : Site} (h : q.Counted) (p : Site) (steps : List Step) :
    ofSteps (p.behind q) steps = (ofSteps q steps).map p.behind := by
  induction steps generalizing q with
  | nil => rfl
  | cons s steps ih =>
    obtain ⟨hfold, hcounted⟩ := foldl_behind h p s.text
    rw [ofSteps, ofSteps, hfold, ih hcounted]
    split <;> rfl

theorem ofSteps_append_of_hidden {front : List Step} (h : ∀ s ∈ front, s.isCodeChar sigil = false)
    (p : Site) (steps : List Step) :
    ofSteps p (front ++ steps) = ofSteps ((spell front).foldl after p) steps := by
  induction front generalizing p with
  | nil => rfl
  | cons s front ih =>
    obtain ⟨hs, hfront⟩ := List.forall_mem_cons.mp h
    rw [List.cons_append, ofSteps, if_neg (by simp [hs]), ih hfront, spell_cons, List.foldl_append]

end Site

/-- An interpolation reads the text as code does: the template ends in code, the brace behind the text is
the one that ends the interpolation, and what follows the template has its sites as on its own. -/
structure ReadAsCode (cs : List Char) : Prop where
  ends : Context.start.run (interpolated cs) = .start
  closes : ∃ front s back, trace .start (interpolated cs) = front ++ s :: back ∧
    spell front = backtick :: '$' :: '{' :: cs ∧ s.text = ['}'] ∧ s.EndsInterpolation ∧
      ∀ s' ∈ front, ¬s'.EndsInterpolation
  sites : ∀ rest, leftoverSites (interpolated cs ++ rest) =
    (leftoverSites rest).map (Site.behind ((interpolated cs).foldl Site.after .start))

/-- A text that is closed as code, and whose comments hold no delimiter. -/
theorem readAsCode_of_closed {cs : List Char} (h : Bracket.curly.Closed cs)
    (hplain : PlainComments .start cs) : ReadAsCode cs where
  ends := run_interpolated h hplain
  closes := interpolated_ends h hplain
  sites rest := by
    rw [leftoverSites, joins_interpolated h hplain,
      Site.ofSteps_append_of_hidden (isCodeChar_interpolated h hplain), spell_trace, leftoverSites,
      ← Site.ofSteps_behind Site.start_counted, Site.behind_start]

/-- Braces, a brace in a string, a template in the template and a comment. -/
theorem readAsCode_of_nested : ReadAsCode
    "f(\x7ba: '\x7d'\x7d) + \x60b$\x7b \x7bc\x7d \x7d\x60 /* (d] */".toList :=
  readAsCode_of_closed ⟨by decide +kernel, by decide +kernel⟩ (by decide +kernel)

/-- A quote in a comment opens a string in the interpolation, which hides what follows. -/
theorem not_readAsCode_of_comment : Bracket.curly.Closed "/* ' */".toList ∧
    Context.start.run (interpolated "/* ' */".toList) = ⟨.singleQuoted, [0]⟩ ∧
      leftoverSites (interpolated "/* ' */".toList ++ [sigil]) = [] ∧ leftoverSites [sigil] = [.start] :=
  ⟨⟨by decide +kernel, by decide +kernel⟩, by decide +kernel, by decide +kernel, by decide +kernel⟩

end Florin
