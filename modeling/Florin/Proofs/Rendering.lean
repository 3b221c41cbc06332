import Florin.Proofs.Outlines

/-! # Renderings in step with their source

The standard form of a shorthand consists of quiet text, the parameters and the body. Where it ends
in code, an outline is rendered in step with its source: the scans of both are in code at the same
places. One thing breaks the step. The clean-up of an expression body may take away the line break
that ends a line comment, and what follows is then swallowed by the comment. Such a cut is marked.
-/
namespace Florin
open Text Lexical

def Body.isBlock : Body → Bool
  | .block _ => true
  | .expression _ => false

namespace Shorthand

/-- The standard form up to the parameters. -/
def standardFront (s : Shorthand) (k : Keyword) (isAsync : Bool) : List Char :=
  (match s.name with
    | some name => k.name.toList ++ [' '] ++ name ++ [' ', '=', ' ']
    | none => ['(']) ++
  (if isAsync then asyncWord ++ [' '] else []) ++
  if s.body.isBlock && s.generator then "function* (".toList else ['(']

/-- The standard form between the parameters and the body. -/
def standardMiddle (s : Shorthand) : List Char :=
  if !s.body.isBlock then [')', ' ', '=', '>', ' ']
  else if s.generator then [')', ' ', '{']
  else [')', ' ', '=', '>', ' ', '{']

/-- The expanded body as the standard form shows it. -/
def standardBody (s : Shorthand) (body : List Char) : List Char :=
  if s.body.isBlock then body else cleanExpression body

/-- The standard form after the body. -/
def standardClose (s : Shorthand) : List Char :=
  (if s.body.isBlock then ['}'] else []) ++ [if s.name.isSome then ';' else ')']

theorem standard_eq (s : Shorthand) (k : Keyword) (isAsync : Bool) (params body : List Char) :
    s.standard k isAsync params body = s.standardFront k isAsync ++
      (params ++ (s.standardMiddle ++ (s.standardBody body ++ s.standardClose))) := by
  obtain ⟨generator, name, lead, p, middle, b, close⟩ := s
  cases name <;> cases b <;> cases generator <;>
    simp [standard, function, standardFront, standardMiddle, standardBody, standardClose, Body.isBlock]

theorem standardFront_quiet {s : Shorthand} (h : ∀ name ∈ s.name, Quiet name) (k : Keyword)
    (isAsync : Bool) : Quiet (s.standardFront k isAsync) := by
  have hasync : Quiet (if isAsync then asyncWord ++ [' '] else []) := by cases isAsync <;> decide
  refine Quiet.append (Quiet.append ?_ hasync) ?_
  · cases hn : s.name with
    | none => exact (by decide : Quiet ['('])
    | some name =>
      have hk : Quiet (k.name.toList ++ [' ']) := by cases k <;> decide
      exact (hk.append (h name hn)).append (by decide)
  · cases s.body.isBlock <;> cases s.generator <;> decide

/-- The characters of a standard form but for its name, its parameters and its body. -/
def standardChars : List Char := "varletcons async=>function*(){};".toList

theorem standardMiddle_subset (s : Shorthand) : s.standardMiddle ⊆ standardChars := by
  unfold standardMiddle
  cases s.body.isBlock <;> cases s.generator <;> decide

theorem standardClose_subset (s : Shorthand) : s.standardClose ⊆ standardChars := by
  unfold standardClose
  cases s.body.isBlock <;> cases s.name.isSome <;> decide

theorem sigil_not_mem_standardChars : sigil ∉ standardChars := by decide

theorem sigil_not_mem_standardMiddle (s : Shorthand) : sigil ∉ s.standardMiddle :=
  fun h => sigil_not_mem_standardChars (s.standardMiddle_subset h)

theorem sigil_not_mem_standardClose (s : Shorthand) : sigil ∉ s.standardClose :=
  fun h => sigil_not_mem_standardChars (s.standardClose_subset h)

theorem count_standardFront {c : Char} (hc : c ∉ standardChars) (s : Shorthand) (k : Keyword) (isAsync : Bool) :
    (s.standardFront k isAsync).count c = (s.name.getD []).count c := by
  have hnone {cs : List Char} (h : cs ⊆ standardChars) : cs.count c = 0 :=
    List.count_eq_zero.mpr fun hm => hc (h hm)
  have hasync : (if isAsync then asyncWord ++ [' '] else []).count c = 0 := by
    cases isAsync <;> exact hnone (by decide)
  have hopen : (if s.body.isBlock && s.generator then "function* (".toList else ['(']).count c = 0 := by
    cases s.body.isBlock <;> cases s.generator <;> exact hnone (by decide)
  rw [standardFront, List.count_append, List.count_append, hasync, hopen]
  cases s.name with
  | none => exact hnone (by decide : ['('] ⊆ standardChars)
  | some name =>
    have hk : (k.name.toList ++ [' ']).count c = 0 := by cases k <;> exact hnone (by decide)
    have heq : [' ', '=', ' '].count c = 0 := hnone (by decide)
    simp only [List.count_append, hk, heq, Option.getD_some, Nat.zero_add, Nat.add_zero]

theorem standardMiddle_quiet (s : Shorthand) : Quiet s.standardMiddle := by
  unfold standardMiddle
  cases s.body.isBlock <;> cases s.generator <;> decide

theorem standardClose_quiet (s : Shorthand) : Quiet s.standardClose := by
  unfold standardClose
  cases s.body.isBlock <;> cases s.name.isSome <;> decide

theorem standardFront_head (s : Shorthand) (k : Keyword) (isAsync : Bool) :
    ∃ c more, s.standardFront k isAsync = c :: more ∧ c ∈ ['(', 'v', 'l', 'c'] := by
  unfold standardFront
  cases s.name with
  | none => exact ⟨'(', _, rfl, by decide⟩
  | some name => cases k <;> exact ⟨_, _, rfl, by decide⟩

theorem apart_standardMiddle (s : Shorthand) (xs ys : List Char) :
    Apart xs (s.standardMiddle ++ ys) := by
  unfold standardMiddle
  cases s.body.isBlock <;> cases s.generator <;> exact apart_cons (by decide) _ _

theorem apart_standardClose (s : Shorthand) (xs ys : List Char) :
    Apart xs (s.standardClose ++ ys) := by
  unfold standardClose
  cases s.body.isBlock <;> cases s.name.isSome <;> exact apart_cons (by decide) _ _

theorem standard_concat (s : Shorthand) (k : Keyword) (isAsync : Bool) (params body : List Char) :
    ∃ front, s.standard k isAsync params body = front ++ [if s.name.isSome then ';' else ')'] := by
  rw [standard_eq, standardClose]
  simp only [← List.append_assoc]
  exact ⟨_, rfl⟩

theorem apart_standard (s : Shorthand) (k : Keyword) (isAsync : Bool) (params body ys : List Char) :
    Apart (s.standard k isAsync params body) ys := by
  obtain ⟨front, hs⟩ := s.standard_concat k isAsync params body
  rw [hs]
  exact apart_concat (by cases s.name.isSome <;> decide) _ _

theorem trace_standard_append {s : Shorthand} (hname : ∀ name ∈ s.name, Quiet name) (k : Keyword)
    (isAsync : Bool) {params : List Char} (hp : Context.start.run params = .start) (body ys : List Char) :
    trace .start (s.standard k isAsync params body ++ ys) = trace .start (s.standardFront k isAsync) ++
      (trace .start params ++ (trace .start s.standardMiddle ++
        trace .start (s.standardBody body ++ (s.standardClose ++ ys)))) := by
  have hfront := standardFront_quiet hname k isAsync
  have hjp (zs : List Char) : Joins .start params (s.standardMiddle ++ zs) :=
    joins_of_isCode (by rw [hp]; rfl) (s.apart_standardMiddle _ _)
  simp only [standard_eq, List.append_assoc]
  rw [hfront.joins, hfront.run, hjp, hp, s.standardMiddle_quiet.joins, s.standardMiddle_quiet.run]

/-- The steps from the body of a standard form on, where the body ends in code. -/
theorem trace_standardBody_append {s : Shorthand} {body : List Char}
    (hb : Context.start.run (s.standardBody body) = .start) (ys : List Char) :
    trace .start (s.standardBody body ++ (s.standardClose ++ ys)) =
      trace .start (s.standardBody body) ++ (trace .start s.standardClose ++ trace .start ys) := by
  have hjb : Joins .start (s.standardBody body) (s.standardClose ++ ys) :=
    joins_of_isCode (by rw [hb]; rfl) (s.apart_standardClose _ _)
  rw [hjb, hb, s.standardClose_quiet.joins, s.standardClose_quiet.run]

/-- The steps over a standard form and what follows, where its parts end in code. -/
theorem trace_standard {s : Shorthand} (hname : ∀ name ∈ s.name, Quiet name) (k : Keyword)
    (isAsync : Bool) {params body : List Char} (hp : Context.start.run params = .start)
    (hb : Context.start.run (s.standardBody body) = .start) (ys : List Char) :
    trace .start (s.standard k isAsync params body ++ ys) = trace .start (s.standardFront k isAsync) ++
      (trace .start params ++ (trace .start s.standardMiddle ++ (trace .start (s.standardBody body) ++
        (trace .start s.standardClose ++ trace .start ys)))) := by
  rw [trace_standard_append hname k isAsync hp, trace_standardBody_append hb]

theorem run_standard {s : Shorthand} (hname : ∀ name ∈ s.name, Quiet name) (k : Keyword)
    (isAsync : Bool) {params body : List Char} (hp : Context.start.run params = .start)
    (hb : Context.start.run (s.standardBody body) = .start) :
    Context.start.run (s.standard k isAsync params body) = .start := by
  have hrun (xs : List Char) : (trace .start xs).foldl (fun _ t => t.after) Context.start = Context.start.run xs := rfl
  have ht := trace_standard hname k isAsync hp hb []
  rw [List.append_nil] at ht
  rw [Context.run, ht]
  simp only [List.foldl_append, hrun, (standardFront_quiet hname k isAsync).run, hp, s.standardMiddle_quiet.run, hb,
    s.standardClose_quiet.run, Context.run_nil]

end Shorthand

/-- What becomes of the sigils of a text, in the order of the result; a cut stands behind the body
that it happens to. -/
inductive Mark where
  | leftover
  | inName
  | hidden
  | cut
  deriving DecidableEq, Repr

/-- The text ends in a line comment. -/
def endsInComment (cs : List Char) : Bool := (Context.start.run cs).region = .lineComment

namespace Outline

def marksOf (m : Mark) (cs : List Char) : List Mark := (cs.filter (· = sigil)).map fun _ => m

/-- The clean-up of the expanded body takes away the line break that ends a line comment. -/
def cutMark (s : Shorthand) (body : List Char) : List Mark :=
  if !s.body.isBlock && endsInComment (Shorthand.cleanExpression body) then [.cut] else []

def marks (k : Keyword) : Outline → List Mark
  | .done => []
  | .text cs rest => marksOf .hidden cs ++ rest.marks k
  | .leftover rest => .leftover :: rest.marks k
  | .shorthand _ s params body rest =>
    marksOf .inName (s.name.getD []) ++
      (params.marks k ++ (body.marks k ++ (cutMark s (body.render k) ++ rest.marks k)))

/-- An outline is rendered with a head that a step before it reads like that of its source. -/
theorem step_render (k : Context) (c : Char) (k' : Context) (joined : Bool) (cs : List Char)
    (w : Keyword) : k.step c ((read k' joined cs).render w).head? = k.step c cs.head? := by
  fun_cases read k' joined cs with
  | case1 cs o h =>
    obtain ⟨-, ho⟩ := Option.ite_none_right_eq_some.mp h
    obtain ⟨d, more, hd, hmem⟩ := o.shorthand.standardFront_head w o.gap.isSome
    have hdetached := (by decide : ∀ d ∈ ['(', 'v', 'l', 'c'], d ≠ '/' ∧ d ≠ '*' ∧ d ≠ '{') d hmem
    have hsource : ∃ d more, cs = d :: more ∧ d ≠ '/' ∧ d ≠ '*' ∧ d ≠ '{' := by
      rw [Opening.read?_append ho]
      cases o.gap with
      | none => exact ⟨sigil, _, rfl, by decide⟩
      | some gap => exact ⟨'a', _, rfl, by decide⟩
    obtain ⟨d', more', rfl, hdetached'⟩ := hsource
    rw [render, Shorthand.standard_eq, hd]
    simp only [List.cons_append, List.head?_cons]
    rw [Context.step_some_of_detached hdetached, Context.step_some_of_detached hdetached']
  | case2 => rfl
  | case3 d h hs =>
    simp only [Bool.and_eq_true, decide_eq_true_eq] at hs
    rw [hs.2]
    rfl
  | case4 => rfl
  | case5 d e rest h hs =>
    simp only [Bool.and_eq_true, decide_eq_true_eq] at hs
    rw [hs.2]
    rfl
  | case6 => rfl
  | case7 => rfl

/-- Over the rendering of what follows, or the front of it, a step stays what it is over the text itself. -/
theorem trace_step_render (k : Context) (c : Char) (cs : List Char) {joined : Bool} {w : Keyword}
    {front : List Char} (h : front <+: (read (firstStep k c cs).after joined (behindStep k c cs)).render w) :
    trace k ((firstStep k c cs).text ++ front) = firstStep k c cs :: trace (firstStep k c cs).after front := by
  refine trace_firstStep_append k c cs fun hne => ⟨?_, fun hn => ?_⟩
  · rintro rfl
    exact hne (by simpa [behindStep, read_nil, render] using h)
  · have hhead : front.head? = ((read (firstStep k c cs).after joined (behindStep k c cs)).render w).head? := by
      obtain ⟨back, hback⟩ := h
      rw [← hback, List.head?_append_of_ne_nil _ hne]
    rw [hhead, step_render]
    simp [behindStep, hn]

theorem run_step_render (k : Context) (c : Char) (cs : List Char) {joined : Bool} {w : Keyword}
    {front : List Char} (h : front <+: (read (firstStep k c cs).after joined (behindStep k c cs)).render w) :
    k.run ((firstStep k c cs).text ++ front) = (firstStep k c cs).after.run front := by
  rw [Context.run, trace_step_render k c cs h]
  rfl

end Outline

/-- Blanks and semicolons at the end of a text do not reach over any other character. -/
theorem exists_of_append_idle {out idle before after : List Char} {c : Char}
    (h : out ++ idle = before ++ c :: after) (hidle : ∀ c ∈ idle, isIdle c = true) (hc : isIdle c = false) :
    ∃ back, out = before ++ c :: back ∧ back ++ idle = after := by
  rcases List.append_eq_append_iff.mp h with ⟨more, rfl, hmore⟩ | ⟨more, rfl, hmore⟩
  · exact absurd (hidle c (by simp [hmore])) (by simp [hc])
  · cases more with
    | nil =>
      rw [List.nil_append] at hmore
      exact absurd (hidle c (hmore ▸ List.mem_cons_self)) (by simp [hc])
    | cons d more =>
      obtain ⟨rfl, hafter⟩ := List.cons.inj hmore
      exact ⟨more, rfl, hafter.symm⟩

namespace Shorthand

theorem cleanExpression_append (cs : List Char) : ∃ idle, cleanExpression cs ++ idle = cs ∧
    ∀ c ∈ idle, isIdle c = true := by
  have htrim (xs : List Char) : ∃ idle, trimEnd xs ++ idle = xs ∧ ∀ c ∈ idle, isIdle c = true :=
    ⟨_, dropWhileEnd_append_takeWhile isBlank xs,
      fun c hc => isIdle_of_isBlank (List.mem_takeWhile_imp (List.mem_reverse.mp hc))⟩
  obtain ⟨last, hlast, hlastidle⟩ := htrim cs
  have hsemis := dropWhileEnd_append_takeWhile (fun c => decide (c = ';')) (trimEnd cs)
  obtain ⟨first, hfirst, hfirstidle⟩ := htrim (dropWhileEnd (· = ';') (trimEnd cs))
  refine ⟨first ++ (((trimEnd cs).reverse.takeWhile (fun c => decide (c = ';'))).reverse ++ last), ?_, ?_⟩
  · rw [cleanExpression, ← List.append_assoc, hfirst, ← List.append_assoc, hsemis, hlast]
  · intro c hc
    rcases List.mem_append.mp hc with hc | hc
    · exact hfirstidle c hc
    · rcases List.mem_append.mp hc with hc | hc
      · have hsemi := List.mem_takeWhile_imp (List.mem_reverse.mp hc)
        simp only [isIdle, hsemi, Bool.or_true]
      · exact hlastidle c hc

/-- Of a body the standard form takes no more than these at its end. -/
theorem standardBody_append (s : Shorthand) (body : List Char) : ∃ idle, s.standardBody body ++ idle = body ∧
    ∀ c ∈ idle, isIdle c = true := by
  unfold standardBody
  split
  · exact ⟨[], List.append_nil _, by simp⟩
  · exact cleanExpression_append body

/-- Unless it is cut, a cleaned text ends where the text itself does. -/
theorem run_cleanExpression {cs : List Char} (h : endsInComment (cleanExpression cs) = false) :
    Context.start.run (cleanExpression cs) = Context.start.run cs := by
  obtain ⟨idle, hcs, hidle⟩ := cleanExpression_append cs
  have hne : (Context.start.run (cleanExpression cs)).region ≠ .lineComment := by
    simpa [endsInComment] using h
  conv_rhs => rw [← hcs, Context.run_append_idle _ _ hidle, Context.run_idle hne hidle]

end Shorthand

namespace Outline

theorem run_standardBody {s : Shorthand} {body : List Char} (hcut : .cut ∉ cutMark s body)
    (hb : Context.start.run body = .start) : Context.start.run (s.standardBody body) = .start := by
  unfold Shorthand.standardBody
  split
  · exact hb
  · rename_i hblock
    have hclean : endsInComment (Shorthand.cleanExpression body) = false := by
      by_contra hc
      simp [cutMark, hblock, hc] at hcut
    rw [Shorthand.run_cleanExpression hclean, hb]

/-- Without a cut the rendering of an outline ends in code if its source does. -/
theorem run_render {k : Context} (hk : k.Settled) (joined : Bool) (cs : List Char) (w : Keyword)
    (hcut : .cut ∉ (read k joined cs).marks w) (hcode : (k.run cs).isCode = true) :
    (k.run ((read k joined cs).render w)).isCode = true := by
  induction k, joined, cs using read_induction with
  | nil => rwa [read_nil]
  | opening k joined cs o hk' ho ihParams ihBody ihRest =>
    obtain rfl := hk hk'
    obtain ⟨hspans, -⟩ := Opening.read?_spans ho
    rw [read_of_opening ho] at hcut
    simp only [marks, List.mem_append, not_or] at hcut
    obtain ⟨-, hcutParams, hcutBody, hcutMark, hcutRest⟩ := hcut
    have hbody := Opening.body_closed ho hcode
    rw [Opening.run_closed ho hbody] at hcode
    have hstandard := Shorthand.run_standard hspans.name w o.gap.isSome
      (Context.run_eq_start (ihParams Context.start_settled hcutParams (by rw [hspans.params]; rfl)))
      (run_standardBody hcutMark
        (Context.run_eq_start (ihBody Context.start_settled hcutBody (by rw [hbody]; rfl))))
    rw [read_of_opening ho, render,
      (joins_of_isCode (by rw [hstandard]; rfl) (o.shorthand.apart_standard _ _ _ _ _)).run, hstandard]
    exact ihRest hk hcutRest hcode
  | leftover k joined cs hk' hread ih =>
    obtain rfl := hk hk'
    rw [hread] at hcut ⊢
    rw [Context.run_cons_of_isQuiet isQuiet_sigil] at hcode
    rw [render, Context.run_cons_of_isQuiet isQuiet_sigil]
    exact ih hk (fun hm => hcut (List.mem_cons_of_mem _ hm)) hcode
  | step k joined c cs hs hread ih =>
    rw [hread] at hcut ⊢
    rw [Context.run_cons] at hcode
    rw [render, run_step_render k c cs List.prefix_rfl]
    exact ih (Context.step_settled hk c _) (fun hm => hcut (List.mem_append_right _ hm)) hcode

end Outline

end Florin
