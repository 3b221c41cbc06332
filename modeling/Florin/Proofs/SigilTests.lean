import Florin.Proofs.Lexical.Places
import Florin.Proofs.Outlines

/-! # Nested scans keep step

A text is scanned as a whole, and the parameters and the body of each shorthand are scanned again,
each from its own start in code; the scan around a shorthand goes on behind it in the context before
it. Wherever one of these scans meets a sigil, it is in the context of the one plain pass over the
whole text.
-/
namespace Florin
open Text Lexical

/-- A scan meets a sigil: the place in the text, the context of this scan, and whether the sigil is
tried as the start of a shorthand. -/
structure SigilTest where
  place : Nat
  context : Context
  tried : Bool
  deriving DecidableEq, Repr

namespace Outline

/-- Where the scans behind an outline meet a sigil, given the place and the context of its start. -/
def sigilTests (place : Nat) (k : Context) : Outline → List SigilTest
  | .done => []
  | .text cs rest =>
    (if cs.head? = some sigil then [⟨place, k, false⟩] else []) ++
      rest.sigilTests (place + cs.length) (k.run cs)
  | .leftover rest => ⟨place, k, true⟩ :: rest.sigilTests (place + 1) k
  | .shorthand gap s params body rest =>
    let start := place + (asyncPart gap).length + 1
    ⟨place + (asyncPart gap).length, k, true⟩ ::
      (params.sigilTests (start + s.lead.length) .start ++
        body.sigilTests (start + s.lead.length + s.params.length + s.middle.length) .start ++
        rest.sigilTests (start + s.span.length) k)

theorem sigil_mem_of_sigilTests {place : Nat} {k : Context} {o : Outline} {t : SigilTest}
    (h : t ∈ o.sigilTests place k) : sigil ∈ o.source := by
  induction o generalizing place k with
  | done => simp [sigilTests] at h
  | text cs rest ih =>
    rcases List.mem_append.mp h with hc | hr
    · split at hc
      · rename_i hs
        exact List.mem_append_left _ (List.mem_of_mem_head? hs)
      · simp at hc
    · exact List.mem_append_right _ (ih hr)
  | leftover rest ih => exact List.mem_cons_self
  | shorthand gap s params body rest => simp [source]

end Outline

namespace SigilTest

/-- A test meets the sigil of a step at its place, in the context of that step, given the place
where the steps start. -/
def Agrees (t : SigilTest) (place : Nat) (steps : List Step) : Prop :=
  ∃ s n, t.place = place + n ∧ StepAt steps n s ∧ s.text.head? = some sigil ∧
    s.before = t.context ∧ t.tried = t.context.isCode

variable {t : SigilTest} {place : Nat} {steps : List Step}

theorem Agrees.append_right (h : t.Agrees place steps) (more : List Step) :
    t.Agrees place (steps ++ more) := by
  obtain ⟨s, n, hp, hs, hrest⟩ := h
  exact ⟨s, n, hp, hs.append_right more, hrest⟩

theorem Agrees.append_left {before : List Step} (h : t.Agrees (place + (spell before).length) steps) :
    t.Agrees place (before ++ steps) := by
  obtain ⟨s, n, hp, hs, hrest⟩ := h
  exact ⟨s, _, by rw [hp, Nat.add_assoc], hs.append_left before, hrest⟩

theorem Agrees.cons {first : Step} (h : t.Agrees (place + first.text.length) steps) :
    t.Agrees place (first :: steps) :=
  show t.Agrees place ([first] ++ steps) from append_left (by simpa using h)

theorem agrees_head {place : Nat} {s : Step} (hs : s.text.head? = some sigil) (steps : List Step)
    {tried : Bool} (ht : tried = s.before.isCode) :
    (SigilTest.mk place s.before tried).Agrees place (s :: steps) :=
  ⟨s, 0, rfl, StepAt.head s steps, hs, rfl, ht⟩

end SigilTest

namespace Outline

/-- The tests on a shorthand agree with the steps from its opening on, if those of the fresh scans
and of the scan behind it do. -/
theorem sigilTests_shorthand {joined : Bool} {cs : List Char} {o : Opening}
    (ho : Opening.read? joined cs = some o)
    (hparams : ∀ place, ∀ t ∈ (read .start false o.shorthand.params).sigilTests place .start,
      t.Agrees place (trace .start o.shorthand.params))
    (hbody : ∀ place, ∀ t ∈ (read .start false o.shorthand.body.text).sigilTests place .start,
      t.Agrees place (trace .start o.shorthand.body.text))
    (hrest : ∀ place, ∀ t ∈ (read .start o.joins o.rest).sigilTests place .start,
      t.Agrees place (trace .start o.rest))
    (place : Nat) : ∀ t ∈ (shorthand o.gap o.shorthand (read .start false o.shorthand.params)
        (read .start false o.shorthand.body.text) (read .start o.joins o.rest)).sigilTests place .start,
      t.Agrees place (trace .start cs) := by
  have hspans := (Opening.read?_spans ho).1
  rw [Opening.trace_eq ho, hspans.trace_eq]
  intro t ht
  simp only [sigilTests, List.mem_cons, List.mem_append] at ht
  rcases ht with rfl | (ht | ht) | ht
  · refine SigilTest.Agrees.append_left ?_
    rw [spell_trace]
    exact SigilTest.agrees_head rfl _ rfl
  · refine .append_left (.cons (.append_left (.append_right ?_ _)))
    rw [spell_trace, spell_trace]
    exact hparams _ t ht
  · refine .append_left (.cons (.append_left (.append_left (.append_left (.append_right ?_ _)))))
    rw [spell_trace, spell_trace, spell_trace, spell_trace]
    exact hbody _ t ht
  · -- A literal that the body leaves open runs to the end of the text, and no sigil is left.
    rcases hspans.body_ends with hclosed | ⟨hblank, -⟩
    · rw [hclosed, hspans.close.joins, hspans.close.run]
      refine .append_left (.cons (.append_left (.append_left (.append_left (.append_left
        (.append_left ?_))))))
      simp only [spell_trace]
      have hplace : place + (asyncPart o.gap).length + 1 + o.shorthand.span.length =
          place + (asyncPart o.gap).length + 1 + o.shorthand.lead.length + o.shorthand.params.length +
            o.shorthand.middle.length + o.shorthand.body.text.length + o.shorthand.close.length := by
        simp only [Shorthand.span, List.length_append]
        omega
      rw [hplace] at ht
      exact hrest _ t ht
    · have hmem := sigil_mem_of_sigilTests ht
      rw [source_read] at hmem
      exact absurd (hblank sigil hmem) (by decide)

/-- Every scan behind an outline keeps step with the trace of the text. -/
theorem sigilTests_read {k : Context} (hk : k.Settled) (joined : Bool) (cs : List Char) (place : Nat) :
    ∀ t ∈ (read k joined cs).sigilTests place k, t.Agrees place (trace k cs) := by
  induction k, joined, cs using read_induction generalizing place with
  | nil => simp [read_nil, sigilTests]
  | opening k joined cs o hk' ho ihParams ihBody ihRest =>
    obtain rfl := hk hk'
    rw [read_of_opening ho]
    exact sigilTests_shorthand ho (fun place => ihParams hk place) (fun place => ihBody hk place)
      (fun place => ihRest hk place) place
  | leftover k joined cs hk' hread ih =>
    obtain rfl := hk hk'
    rw [hread, trace_cons_of_isQuiet isQuiet_sigil]
    intro t ht
    rcases List.mem_cons.mp ht with rfl | ht
    · exact SigilTest.agrees_head rfl _ rfl
    · exact .cons (ih hk _ t ht)
  | step k joined c cs hs hread ih =>
    rw [hread, trace_cons]
    intro t ht
    rcases List.mem_append.mp ht with ht | ht
    · -- A step of text that starts with a sigil is read outside of code.
      rw [firstStep_head] at ht
      split at ht
      · rename_i hc
        obtain rfl := List.mem_singleton.mp ht
        obtain rfl := Option.some.inj hc
        have hcode : k.isCode = false := by simpa using hs
        exact SigilTest.agrees_head (firstStep_head k sigil cs) _ hcode.symm
      · simp at ht
    · rw [Context.run_firstStep] at ht
      exact .cons (ih (Context.step_settled hk c _) _ t ht)

/-- Wherever a scan meets a sigil, it tries the sigil as a shorthand if and only if it is in code,
and it is in code if and only if the pass over the whole text is: nothing is tried in a string, a
comment, a template or an interpolation. -/
theorem sigilTests_in_step (source : List Char) :
    ∀ t ∈ (ofText source).sigilTests 0 .start, ∃ s, StepAt (trace .start source) t.place s ∧
      s.text.head? = some sigil ∧ (t.context.isCode = true ↔ s.before.isCode = true) ∧
        (t.tried = true ↔ s.before.isCode = true) := by
  intro t ht
  obtain ⟨s, n, hp, hs, hsigil, hbefore, htried⟩ :=
    sigilTests_read Context.start_settled false source 0 t ht
  rw [Nat.zero_add] at hp
  subst hp
  exact ⟨s, hs, hsigil, by rw [hbefore], by rw [htried, hbefore]⟩

/-- The scan of a body in a body meets a sigil in a string, where the pass over the whole text is too. -/
theorem sigilTests_in_step_of_nested : ∃ s,
    StepAt (trace .start "'ƒ' ƒ f(a) [ƒ(b) 'ƒ']".toList) 18 s ∧ s.text.head? = some sigil ∧
      (Context.isCode ⟨.singleQuoted, []⟩ = true ↔ s.before.isCode = true) ∧
        (false = true ↔ s.before.isCode = true) :=
  sigilTests_in_step "'ƒ' ƒ f(a) [ƒ(b) 'ƒ']".toList ⟨18, ⟨.singleQuoted, []⟩, false⟩
    (by decide +kernel)

end Outline

end Florin
