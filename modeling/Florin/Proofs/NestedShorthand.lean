import Florin.Proofs.Lexical.Nested
import Florin.Proofs.Rendering
import Florin.Proofs.Trimming

/-! # Shorthands in nested text

In a text that closes the open brackets, the parameters and the body of a shorthand are well-formed,
and the text behind the shorthand closes the same brackets. An expression body ends neither in a blank
nor in a semicolon.
-/
namespace Florin
open Text Lexical

/-- The character opens no literal and is no bracket. -/
def isPlain (c : Char) : Bool := isQuiet c && decide (c ∉ Bracket.all)

theorem isPlain_of_isContinue {c : Char} (h : Identifier.isContinue c = true) : isPlain c = true := by
  have hc : c ∉ Bracket.all := fun hm => by
    simp [(by decide : ∀ c ∈ Bracket.all, Identifier.isContinue c = false) c hm] at h
  simp [isPlain, isQuiet_of_isContinue h, hc]

theorem isPlain_of_isBlank {c : Char} (h : isBlank c = true) : isPlain c = true := by
  have hc : c ∉ Bracket.all := fun hm => by
    simp [(by decide : ∀ c ∈ Bracket.all, isBlank c = false) c hm] at h
  simp [isPlain, isQuiet_of_isIdle (isIdle_of_isBlank h), hc]

namespace Lexical.Closes
variable {stack : List Bracket} {xs cs : List Char}

theorem plain_cons_iff {c : Char} (h : isPlain c = true) :
    Closes .start stack (c :: cs) ↔ Closes .start stack cs := by
  simp only [isPlain, Bool.and_eq_true, decide_eq_true_eq] at h
  refine cons_iff h.1 (openAfter?_of_free (fun b hb => ?_) stack)
  have hne : c ≠ b := fun he => h.2 (he ▸ hb)
  simp [Step.isCodeChar, hne]

theorem plain_append_iff (h : ∀ c ∈ xs, isPlain c = true) :
    Closes .start stack (xs ++ cs) ↔ Closes .start stack cs := by
  induction xs with
  | nil => exact Iff.rfl
  | cons c xs ih =>
    obtain ⟨hc, hxs⟩ := List.forall_mem_cons.mp h
    rw [List.cons_append, plain_cons_iff hc, ih hxs]

theorem skipBlanks_iff : Closes .start stack (skipBlanks cs) ↔ Closes .start stack cs := by
  have h : ∀ c ∈ cs.takeWhile isBlank, isPlain c = true :=
    fun c hc => isPlain_of_isBlank (blanks_of_takeWhile cs c hc)
  rw [← plain_append_iff h, skipBlanks, List.takeWhile_append_dropWhile]

theorem solid_expression (h : Closes .start stack cs) (hne : (Lexical.expression cs).1 ≠ []) :
    Solid (Lexical.expression cs).1 := by
  obtain ⟨silent, back, n, -, -, hlast, -, -⟩ := expressionSteps_scan cs
  have ht := trace_expression cs
  have hspell : spell (expressionSteps cs) = (Lexical.expression cs).1 := by rw [← ht, spell_trace]
  have hsteps : expressionSteps cs ≠ [] := by
    intro hnil
    rw [hnil] at hspell
    exact hne hspell.symm
  obtain ⟨front, s, hs⟩ := (List.eq_nil_or_concat' (expressionSteps cs)).resolve_left hsteps
  have hend : s.after = .start :=
    (run_of_trace_concat (ht.trans hs)).symm.trans h.expression.1.run_eq
  have hmem : s ∈ trace .start (Lexical.expression cs).1 := by simp [ht, hs]
  rw [← hspell, hs, spell_append]
  refine Solid.append ?_ (spell front)
  rcases text_of_mem_trace hmem with ⟨c, hc⟩ | ⟨c, d, hcd, hw, hafter⟩
  · refine ⟨[], c, by simp [hc], ?_, ?_⟩
    · have hsilent := hlast s (by simp [hs])
      simp_all [Step.isSilent]
    · rintro rfl
      have hsemi := h.isCodeChar_semicolon_of_expressionSteps hs
      obtain ⟨c, more, next, htext, hafter, -⟩ := exists_of_mem_trace hmem
      obtain rfl : ';' = c := by simpa [hc] using congrArg List.head? htext
      have hbefore : s.before = .start := by rw [← hend, hafter, Context.step_semicolon]
      simp [Step.isCodeChar, hbefore, hc, Context.isCode, Context.start] at hsemi
  · obtain rfl := Context.eq_slash_of_wide hw (by rw [← hafter, hend]; rfl)
    exact ⟨[c], '/', by simp [hcd], by decide, by decide⟩

end Lexical.Closes

namespace Shorthand
variable {stack : List Bracket} {cs : List Char}

theorem readStar_closes_iff : Closes .start stack (readStar cs).2 ↔ Closes .start stack cs := by
  have hskip : Closes .start stack (skipBlanks cs) ↔ Closes .start stack cs := Closes.skipBlanks_iff
  rw [← hskip, readStar]
  split
  · rename_i rest h
    rw [h, Closes.plain_cons_iff (by decide), Closes.skipBlanks_iff]
  · exact Iff.rfl

theorem readName_closes_iff : Closes .start stack (readName cs).2 ↔ Closes .start stack cs := by
  rw [readName]
  split
  · rename_i name rest h
    have hplain : ∀ c ∈ name, isPlain c = true := fun c hc =>
      isPlain_of_isContinue (Identifier.isContinue_of_read? h c hc)
    rw [← Identifier.append_of_read? h, Closes.plain_append_iff hplain, Closes.skipBlanks_iff]
  · exact Iff.rfl

theorem readParams?_closes (h : Closes .start stack cs) :
    ∃ p, readParams? cs = some p ∧ WellFormed p.text ∧ Closes .start stack p.rest := by
  unfold readParams?
  split
  · rename_i inside
    obtain ⟨inner, rest, he, hinner, hrest⟩ :=
      (Closes.opener_iff (b := .paren).mp h).enclosed?
    exact ⟨⟨inside, inner, skipBlanks rest⟩, by rw [he]; rfl, hinner, Closes.skipBlanks_iff.mpr hrest⟩
  · exact ⟨_, rfl, ⟨rfl, rfl⟩, h⟩

theorem readBody?_closes (h : Closes .start stack cs) {generator : Bool} {body : Body} {b : Stretch}
    (hb : readBody? generator cs = some (body, b)) :
    WellFormed body.text ∧ Closes .start stack b.rest ∧ (body.isBlock = false → Solid body.text) := by
  unfold readBody? at hb
  split at hb
  · rename_i inside
    obtain ⟨inner, rest, he, hinner, hrest⟩ :=
      (Closes.opener_iff (b := .curly).mp h).enclosed?
    rw [he] at hb
    obtain ⟨rfl, rfl⟩ := Prod.mk.inj (Option.some.inj hb)
    exact ⟨hinner, hrest, by simp [Body.isBlock]⟩
  · obtain ⟨hne, hb⟩ := Option.ite_none_left_eq_some.mp hb
    obtain ⟨rfl, rfl⟩ := Prod.mk.inj (Option.some.inj hb)
    simp only [Bool.or_eq_true, List.isEmpty_iff, not_or] at hne
    exact ⟨h.expression.1, h.expression.2, fun _ => h.solid_expression hne.2⟩

/-- The parts of a shorthand in a text that closes the open brackets, and what follows it. -/
theorem read?_closes (h : Closes .start stack cs) {s : Shorthand} {rest : List Char}
    (hr : read? cs = some (s, rest)) : WellFormed s.params ∧ WellFormed s.body.text ∧
      (s.body.isBlock = false → Solid s.body.text) ∧ Closes .start stack rest := by
  obtain ⟨p, hp, hb⟩ := Option.bind_eq_some_iff.mp hr
  obtain ⟨⟨body, b⟩, hbody, he⟩ := Option.map_eq_some_iff.mp hb
  obtain ⟨rfl, rfl⟩ := Prod.mk.inj he
  obtain ⟨p', hp', hparams, hrest⟩ :=
    readParams?_closes (readName_closes_iff.mpr (readStar_closes_iff.mpr h))
  obtain rfl := Option.some.inj (hp.symm.trans hp')
  obtain ⟨hwell, hend, hsolid⟩ := readBody?_closes hrest hbody
  exact ⟨hparams, hwell, hsolid, hend⟩

end Shorthand

namespace Opening
variable {stack : List Bracket} {cs : List Char} {o : Opening}

/-- The parts of an opening in a text that closes the open brackets, and what follows it. -/
structure Closed (o : Opening) (stack : List Bracket) : Prop where
  params : WellFormed o.shorthand.params
  body : WellFormed o.shorthand.body.text
  solid : o.shorthand.body.isBlock = false → Solid o.shorthand.body.text
  rest : Closes .start stack o.rest

theorem read?_closed (h : Closes .start stack cs) {joined : Bool} (ho : read? joined cs = some o) :
    o.Closed stack := by
  have hasync : ∀ c ∈ asyncPart o.gap, isPlain c = true := by
    cases hgap : o.gap with
    | none => simp [asyncPart]
    | some gap =>
      have hblank := (read?_spans ho).2 gap hgap
      exact List.forall_mem_append.mpr ⟨by decide, fun c hc => isPlain_of_isBlank (hblank c hc)⟩
  rw [read?_append ho, Closes.plain_append_iff hasync, Closes.plain_cons_iff (by decide)] at h
  obtain ⟨hparams, hbody, hsolid, hrest⟩ := Shorthand.read?_closes h (read?_shorthand ho)
  exact ⟨hparams, hbody, hsolid, hrest⟩

end Opening

end Florin
