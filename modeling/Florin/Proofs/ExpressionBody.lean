import Florin.Proofs.Outlines
import Florin.Proofs.Partition
import Florin.Proofs.Statements

/-! # Expressions that hold code

Blanks and line comments at the end of a bare expression do not belong to it, and where nothing else is left
of it there is no shorthand. A block comment does belong to it, so a bare expression may be a comment and
nothing more. Every other one holds code, and its expansion does too.
-/
namespace Florin
open Text Lexical

/-- Some character of the text is neither blank nor in a comment. -/
def HasCode (cs : List Char) : Prop := ∃ s ∈ trace .start cs, s.isVoid = false

instance (cs : List Char) : Decidable (HasCode cs) :=
  inferInstanceAs (Decidable (∃ s ∈ trace .start cs, s.isVoid = false))

namespace Lexical

/-! ## Blanks and comments before an end -/

/-- A block comment is opened by a slash in code. -/
theorem Context.step_blockComment {k : Context} {c : Char} {next : Option Char}
    (h : (k.step c next).1.region = .blockComment) :
    k.region = .blockComment ∨ k.region = .code ∧ c = '/' := by
  rcases (step_change k c next).into_isComment (by rw [h]; rfl) with hs | hs
  · exact Or.inl (hs ▸ h)
  · exact Or.inr hs

/-- Outside of block comments, a silent step is a void one that opens no block comment. -/
theorem Step.isSilent_iff {k : Context} {cs : List Char} {s : Step} (hs : s ∈ trace k cs)
    (hb : s.before.region ≠ .blockComment) :
    s.isSilent = true ↔ s.isVoid = true ∧ s.after.region ≠ .blockComment := by
  constructor
  · intro hsilent
    refine ⟨isVoid_of_isSilent hsilent, fun hafter => ?_⟩
    obtain ⟨c, more, next, htext, hstep, -⟩ := exists_of_mem_trace hs
    rw [hstep] at hafter
    obtain ⟨hcode, rfl⟩ := (Context.step_blockComment hafter).resolve_left hb
    rw [← hstep] at hafter
    simp [isSilent, hcode, hafter, htext, (by decide : isBlank '/' = false)] at hsilent
  · rintro ⟨hvoid, hafter⟩
    have hline {r : Region} (hr : r ≠ .blockComment) (h : r.isComment = true) : r = .lineComment := by
      cases r <;> simp_all [Region.isComment]
    simp only [isVoid, Bool.or_eq_true] at hvoid
    rcases hvoid with (h | h) | h
    · simp [isSilent, hline hb h]
    · simp [isSilent, hline hafter h]
    · simp [isSilent, h]

theorem forall_isSilent_iff {k : Context} {cs : List Char} {steps : List Step} (h : steps <+: trace k cs)
    (hk : k.region ≠ .blockComment) : (∀ s ∈ steps, s.isSilent = true) ↔
      ∀ s ∈ steps, s.isVoid = true ∧ s.after.region ≠ .blockComment := by
  induction steps generalizing k cs with
  | nil => simp
  | cons s steps ih =>
    obtain ⟨more, hmore⟩ := h
    cases cs with
    | nil => simp [trace] at hmore
    | cons c cs =>
      have hmem : s ∈ trace k (c :: cs) := hmore ▸ List.mem_cons_self
      rw [trace_cons, List.cons_append] at hmore
      obtain ⟨rfl, hsteps⟩ := List.cons.inj hmore
      rw [List.forall_mem_cons, List.forall_mem_cons, Step.isSilent_iff hmem hk]
      exact and_congr_right fun hs => ih ⟨more, hsteps⟩ hs.2

/-- What holds code of an expression does not start with a semicolon. -/
theorem expression_find_isVoid (cs : List Char) {s : Step}
    (h : (expressionSteps cs).find? (fun s => !s.isVoid) = some s) : s.isCodeChar ';' = false := by
  obtain ⟨silent, back, n, ht, -, -, hfold, -⟩ := expressionSteps_scan cs
  obtain ⟨-, front, more, hsteps, hvoid⟩ := List.find?_eq_some_iff_append.mp h
  have hkeeps : front.foldlM Nesting.after? .zero = some .zero := by
    refine foldlM_eq_self fun t hm => ?_
    have hmem : t ∈ trace .start cs := by
      rw [ht, hsteps]
      exact List.mem_append_left _ (List.mem_append_left _ hm)
    have hchars {d : Char} (hblank : isBlank d = false) (hslash : d ≠ '/') : t.isCodeChar d = false :=
      t.isCodeChar_of_isVoid hmem (by simpa using hvoid t hm) hblank hslash
    have hd : ∀ d ∈ Bracket.all ++ [',', ';'], isBlank d = false ∧ d ≠ '/' := by decide
    refine Nesting.after?_of_isCodeChar (fun d hm => ?_) (.inr fun d hm => ?_)
    · exact hchars (hd d (List.mem_append_left _ hm)).1 (hd d (List.mem_append_left _ hm)).2
    · exact hchars (hd d (List.mem_append_right _ hm)).1 (hd d (List.mem_append_right _ hm)).2
  rw [hsteps, List.append_assoc, List.foldlM_append, hkeeps, List.cons_append] at hfold
  obtain ⟨mid, hmid, -⟩ : ∃ mid, Nesting.zero.after? s = some mid ∧ _ := Option.bind_eq_some_iff.mp hfold
  rw [Bool.eq_false_iff]
  intro hsemi
  have hstop : Nesting.zero.after? s = none := by
    simp only [Step.isCodeChar, Bool.and_eq_true, decide_eq_true_eq] at hsemi
    simp [Nesting.after?, hsemi, (by decide : Bracket.ofOpener? ';' = none), (by decide : Bracket.ofCloser? ';' = none)]
  rw [hstop] at hmid
  simp at hmid

end Lexical

/-! ## Where there is no expression -/

namespace Shorthand

/-- Where a bare expression is looked for, there is no shorthand just if nothing but blanks and line comments
stands before what would end the expression. -/
theorem read?_eq_none_iff {cs : List Char} {p : Stretch} (hp : readParams? (readName (readStar cs).2).2 = some p)
    (hstar : (readStar cs).1 = false) (hbrace : p.rest.head? ≠ some '{') : read? cs = none ↔
      ∀ s ∈ (stepsWhile Nesting.after? .zero .start p.rest).1, s.isSilent = true := by
  have hread : read? cs = none ↔ (expression p.rest).1 = [] := by
    simp [read?, hp, hstar, readBody?_of_head hbrace]
  have htext : (expression p.rest).1 = [] ↔ expressionSteps p.rest = [] := by
    rw [← trace_expression, trace_eq_nil_iff]
  rw [hread, htext]
  exact List.rdropWhile_eq_nil_iff

end Shorthand

/-! ## Code in an expansion -/

namespace Outline

theorem read?_of_mem_attempts {k : Context} {joined : Bool} {cs : List Char} {place n : Nat} {isAsync : Bool}
    {s : Shorthand} (h : ⟨n, .shorthand isAsync s⟩ ∈ (read k joined cs).attempts place) :
    ∃ rest, Shorthand.read? (s.span ++ rest) = some (s, rest) := by
  induction k, joined, cs using read_induction generalizing place with
  | nil => simp [read_nil, attempts] at h
  | opening k joined cs o hcode ho ihParams ihBody ihRest =>
    simp only [read_of_some hcode ho, attempts, List.mem_cons, List.mem_append] at h
    rcases h with h | (h | h) | h
    · obtain ⟨-, rfl⟩ := Outcome.shorthand.inj (Attempt.mk.inj h).2
      exact ⟨o.rest, Opening.read?_shorthand ho⟩
    · exact ihParams h
    · exact ihBody h
    · exact ihRest h
  | leftover k joined cs hcode hread ih =>
    rw [hread, attempts, List.mem_cons] at h
    exact ih (h.resolve_left (by simp))
  | step k joined c cs hs hread ih =>
    rw [hread] at h
    exact ih h

theorem exists_not_isVoid {c : Char} (hblank : isBlank c = false) (hslash : c ≠ '/') (cs : List Char) :
    HasCode (c :: cs) := by
  refine ⟨firstStep .start c cs, by simp [trace_cons], ?_⟩
  rw [Bool.eq_false_iff]
  intro hvoid
  have hcode := Step.isCodeChar_of_isVoid (by rw [trace_cons]; exact List.mem_cons_self) hvoid hblank hslash
  simp [Step.isCodeChar, firstStep_head, Context.isCode, Context.start] at hcode

theorem exists_cons_of_append_idle {out idle more : List Char} {c : Char} (h : out ++ idle = c :: more)
    (hidle : ∀ c ∈ idle, isIdle c = true) (hc : isIdle c = false) : ∃ out', out = c :: out' := by
  cases out with
  | nil =>
    rw [List.nil_append] at h
    exact absurd (hidle c (h ▸ List.mem_cons_self)) (by simp [hc])
  | cons d out' => exact ⟨out', by rw [(List.cons.inj h).1]⟩

/-- If the first code of a text is no semicolon, its rendering holds code, and so does what is left of the
rendering without the blanks and semicolons at its end. -/
theorem exists_not_isVoid_render {k : Context} (hk : k.Settled) (joined : Bool) (cs : List Char) (w : Keyword)
    (hcoherent : k.Coherent) (houter : k.region.isOuter = true) {s : Step}
    (hs : (trace k cs).find? (fun s => !s.isVoid) = some s) (hsemi : s.isCodeChar ';' = false)
    {out idle : List Char} (hout : out ++ idle = (read k joined cs).render w)
    (hidle : ∀ c ∈ idle, isIdle c = true) : ∃ s ∈ trace k out, s.isVoid = false := by
  induction k, joined, cs using read_induction generalizing s out idle with
  | nil => simp [trace] at hs
  | opening k joined cs o hcode ho =>
    obtain rfl := hk hcode
    obtain ⟨c, more, hfront, hmem⟩ := o.shorthand.standardFront_head w o.gap.isSome
    obtain ⟨hidlec, hblank, hslash⟩ := (by decide : ∀ c ∈ ['(', 'v', 'l', 'c'],
      isIdle c = false ∧ isBlank c = false ∧ c ≠ '/') c hmem
    rw [read_of_opening ho, render, Shorthand.standard_eq, hfront] at hout
    obtain ⟨out', rfl⟩ := exists_cons_of_append_idle hout hidle hidlec
    exact exists_not_isVoid hblank hslash out'
  | leftover k joined cs hcode hread ih =>
    obtain rfl := hk hcode
    rw [hread, render] at hout
    obtain ⟨out', rfl⟩ := exists_cons_of_append_idle hout hidle (by decide)
    exact exists_not_isVoid (by decide) (by decide) out'
  | step k joined c cs hsigil hread ih =>
    rw [hread, render] at hout
    rw [trace_cons, List.find?_cons] at hs
    cases hv : (firstStep k c cs).isVoid with
    | true =>
      rw [hv] at hs
      have hnext := fun {out idle} => @ih (Context.step_settled hk c _) (Context.step_coherent hcoherent c _)
        (isOuter_of_isVoid hcoherent houter hv) s hs hsemi out idle
      -- What is left out at the end cannot reach back into this step, for code follows it.
      rcases List.append_eq_append_iff.mp hout with ⟨more, -, hmore⟩ | ⟨out', rfl, hrest⟩
      · obtain ⟨t, ht, -⟩ := hnext (List.nil_append _) fun d hd => hidle d (hmore ▸ List.mem_append_right _ hd)
        simp [trace] at ht
      · obtain ⟨t, ht, hcode⟩ := hnext hrest.symm hidle
        exact ⟨t, by rw [trace_step_render k c cs ⟨idle, hrest.symm⟩]; exact List.mem_cons_of_mem _ ht, hcode⟩
    | false =>
      rw [hv] at hs
      obtain rfl := Option.some.inj hs
      obtain ⟨rfl, hblank, hnarrow, -⟩ := firstStep_of_not_isVoid hcoherent houter hv
      have hidlec : isIdle c = false := by
        have hne : c ≠ ';' := by
          rintro rfl
          simp [Step.isCodeChar, firstStep_head, Context.isCode, Context.start] at hsemi
        simp [isIdle, hblank, hne]
      have htext : (firstStep .start c cs).text = [c] := by rw [firstStep_of_narrow _ _ _ hnarrow]
      rw [htext] at hout
      obtain ⟨out', rfl⟩ := exists_cons_of_append_idle hout hidle hidlec
      have hstep := trace_step_render .start c cs ⟨idle, (List.cons.inj hout).2⟩
      rw [htext] at hstep
      exact ⟨firstStep .start c cs, by rw [List.singleton_append] at hstep; rw [hstep]; exact List.mem_cons_self, hv⟩

end Outline

namespace Shorthand

/-- A bare expression is not empty, and it is the one that starts there. -/
theorem Spans.expression_eq {s : Shorthand} {rest text : List Char} (h : s.Spans rest)
    (hbody : s.body = .expression text) : text ≠ [] ∧ Lexical.expression (text ++ rest) = (text, rest) := by
  rcases h.body with ⟨-, hblock, -⟩ | ⟨-, hne, -, he⟩
  · rw [hbody] at hblock
    simp at hblock
  · rw [hbody] at hne he
    exact ⟨hne, he⟩

theorem standardBody_of_expression {s : Shorthand} {text : List Char} (hbody : s.body = .expression text)
    (body : List Char) : s.standardBody body = cleanExpression body := by
  rw [standardBody, hbody]
  rfl

theorem hasCode_cleanExpression {s : Shorthand} {rest text : List Char} (h : s.Spans rest)
    (hbody : s.body = .expression text) (hcode : HasCode text) (w : Keyword) :
    HasCode (cleanExpression (Scan.run w 0 .initial text).output) := by
  have htrace := trace_expression (text ++ rest)
  rw [(h.expression_eq hbody).2] at htrace
  obtain ⟨t, ht, hv⟩ := hcode
  obtain ⟨first, hfirst⟩ := Option.isSome_iff_exists.mp
    (List.find?_isSome.mpr ⟨t, ht, by simpa using hv⟩ :
      ((trace .start text).find? fun s => !s.isVoid).isSome = true)
  have hsemi := expression_find_isVoid (text ++ rest) (htrace ▸ hfirst)
  obtain ⟨idle, hout, hidle⟩ := cleanExpression_append ((Outline.ofText text).render w)
  rw [Scan.run_initial]
  exact Outline.exists_not_isVoid_render Context.start_settled false text w Context.start_coherent rfl hfirst
    hsemi hout hidle

/-- An expression without code ends in a block comment. -/
theorem exists_blockComment {s : Shorthand} {rest text : List Char} (h : s.Spans rest)
    (hbody : s.body = .expression text) (hcode : ¬HasCode text) :
    ∃ t ∈ trace .start text, t.after.region = .blockComment := by
  obtain ⟨hne, he⟩ := h.expression_eq hbody
  obtain ⟨silent, back, -, -, hlast, -⟩ := expressionSteps_spec (text ++ rest)
  have htrace := trace_expression (text ++ rest)
  rw [he] at htrace
  rw [← htrace] at hlast
  by_contra hnone
  have hsilent : ∀ t ∈ trace .start text, t.isSilent = true := by
    rw [forall_isSilent_iff List.prefix_rfl (by decide)]
    intro t ht
    refine ⟨?_, fun hafter => hnone ⟨t, ht, hafter⟩⟩
    by_contra hv
    exact hcode ⟨t, ht, by simpa using hv⟩
  have hend := List.getLast?_eq_some_getLast (trace_eq_nil_iff.not.mpr hne : trace .start text ≠ [])
  exact absurd (hsilent _ (List.mem_of_getLast? hend)) (by simp [hlast _ hend])

/-- What is put out for the body of a bare expression stands behind the arrow. -/
theorem exists_alone_eq {s : Shorthand} {text : List Char} (hbody : s.body = .expression text) (w : Keyword)
    (isAsync : Bool) : ∃ front, Scan.alone w isAsync s = front ++ (['=', '>', ' '] ++
      (s.standardBody (Scan.run w 0 .initial text).output ++ s.standardClose)) := by
  have hmiddle : s.standardMiddle = [')', ' '] ++ ['=', '>', ' '] := by
    rw [standardMiddle, hbody]
    rfl
  rw [Scan.alone_eq, standard_eq, hmiddle, hbody, Scan.run_initial]
  exact ⟨s.standardFront w isAsync ++ ((Outline.ofText s.params).render w ++ [')', ' ']), by
    simp only [List.append_assoc, Outline.scan, Body.text]⟩

end Shorthand

/-- A bare expression that is recognised, in whatever parameters or bodies, holds code, and so does what is put
out for it behind the arrow; or else it is made up of blanks and comments, one of them a block comment. Where a
bare expression is looked for, there is no shorthand if and only if nothing but blanks and comments stands
before the end, none of them a block comment. -/
theorem expressionBody_hasCode (w : Keyword) :
    (∀ (source : String) (place : Nat) (isAsync : Bool) (s : Shorthand) (text : List Char),
      ⟨place, .shorthand isAsync s⟩ ∈ (Scan.ofText w source.toList).attempts → s.body = .expression text →
        ∃ front emitted, Scan.alone w isAsync s = front ++ (['=', '>', ' '] ++ (emitted ++ s.standardClose)) ∧
          emitted = Shorthand.cleanExpression (Scan.run w 0 .initial text).output ∧
          ((HasCode text ∧ HasCode emitted) ∨
            (¬HasCode text ∧ ∃ t ∈ trace .start text, t.after.region = .blockComment))) ∧
    ∀ (cs : List Char) (p : Stretch), Shorthand.readParams? (Shorthand.readName (Shorthand.readStar cs).2).2 = some p →
      (Shorthand.readStar cs).1 = false → p.rest.head? ≠ some '{' →
        (Shorthand.read? cs = none ↔ ∀ t ∈ (stepsWhile Nesting.after? .zero .start p.rest).1,
          t.isVoid = true ∧ t.after.region ≠ .blockComment) := by
  constructor
  · intro source place isAsync s text hs hbody
    rw [Scan.ofText_eq] at hs
    obtain ⟨rest, hread⟩ := Outline.read?_of_mem_attempts hs
    have hspans := Shorthand.read?_spans hread
    obtain ⟨front, halone⟩ := Shorthand.exists_alone_eq hbody w isAsync
    rw [Shorthand.standardBody_of_expression hbody] at halone
    refine ⟨front, _, halone, rfl, ?_⟩
    by_cases hcode : HasCode text
    · exact Or.inl ⟨hcode, Shorthand.hasCode_cleanExpression hspans hbody hcode w⟩
    · exact Or.inr ⟨hcode, Shorthand.exists_blockComment hspans hbody hcode⟩
  · intro cs p hp hstar hbrace
    rw [Shorthand.read?_eq_none_iff hp hstar hbrace,
      forall_isSilent_iff (stepsWhile_initial _ _ _ _) (by decide)]

/-- A comment before the code of a body in a body, and a body of blanks and a line comment. -/
theorem expressionBody_hasCode_of_comments :
    (∃ front emitted, Scan.alone .let_ false ⟨false, none, ['('], ['b'], ") ".toList,
          .expression "/* c */ b".toList, []⟩ = front ++ (['=', '>', ' '] ++ (emitted ++ [')'])) ∧
        emitted = Shorthand.cleanExpression (Scan.run .let_ 0 .initial "/* c */ b".toList).output ∧
        ((HasCode "/* c */ b".toList ∧ HasCode emitted) ∨
          (¬HasCode "/* c */ b".toList ∧ ∃ t ∈ trace .start "/* c */ b".toList, t.after.region = .blockComment))) ∧
    (Shorthand.read? "(a) // c\n ; b".toList = none ↔
      ∀ t ∈ (stepsWhile Nesting.after? .zero .start "// c\n ; b".toList).1,
        t.isVoid = true ∧ t.after.region ≠ .blockComment) :=
  ⟨(expressionBody_hasCode .let_).1 "ƒ f(a) [ƒ(b) /* c */ b]" 8 false _ _ (by decide +kernel) rfl,
    (expressionBody_hasCode .let_).2 "(a) // c\n ; b".toList ⟨"a) // c\n ; b".toList, ['a'], "// c\n ; b".toList⟩
      (by decide +kernel) (by decide +kernel) (by decide)⟩

/-- A body of nothing but a block comment is put out as it is. -/
theorem expressionBody_of_blockComment :
    Shorthand.read? "(a) /* c */".toList =
        some (⟨false, none, ['('], ['a'], ") ".toList, .expression "/* c */".toList, []⟩, []) ∧
      ¬HasCode "/* c */".toList ∧ expandText .var "ƒ(a) /* c */" = "((a) => /* c */)" ∧
        leftoverSites (expandText .var "ƒ(a) /* c */").toList = [] := by
  decide +kernel

end Florin
