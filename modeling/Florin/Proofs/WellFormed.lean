import Florin.Proofs.NestedShorthand
import Florin.Proofs.Reading

/-! # Well-formed texts stay well-formed

The expansion of a text that ends in code and whose brackets are nested ends in code too, and its
brackets are nested. The standard form of a shorthand puts well-formed parts into brackets of its own.
The clean-up of an expression takes away at most the semicolon of a declaration at its end, so it never
opens a comment.
-/
namespace Florin
open Text Lexical

namespace Trims
variable {whole trimmed : List Char}

theorem run (h : Trims whole trimmed) (k : Context) : k.run trimmed = k.run whole := by
  rcases h.whole with rfl | rfl
  · rfl
  · have hsemi (k : Context) : k.run [';'] = k := congrArg Prod.fst (k.step_semicolon none)
    rw [Context.run_append_idle k trimmed (by decide), hsemi]

theorem wellFormed (h : Trims whole trimmed) (hw : WellFormed whole) : WellFormed trimmed := by
  have hcode : (Context.start.run trimmed).isCode = true := by
    rw [h.run]
    exact hw.code
  refine ⟨hcode, ?_⟩
  rcases h.whole with rfl | rfl
  · exact hw.nested
  · have hj : Joins .start trimmed [';'] := joins_of_isCode hcode (apart_cons (by decide) _ _)
    have hnested := hw.nested
    rw [hj, Context.run_eq_start hcode, List.foldlM_append] at hnested
    obtain ⟨stack, hstack, hsemi⟩ := Option.bind_eq_some_iff.mp hnested
    rw [hstack, ← hsemi]
    rfl

end Trims

theorem Solid.of_append (xs : List Char) {ys : List Char} (h : Solid (xs ++ ys)) (hne : ys ≠ []) : Solid ys := by
  obtain ⟨front, c, happ, hc⟩ := h
  obtain ⟨back, d, rfl⟩ := (List.eq_nil_or_concat' ys).resolve_left hne
  rw [← List.append_assoc] at happ
  obtain ⟨-, hd⟩ := List.append_inj' happ rfl
  exact ⟨back, c, by rw [hd], hc⟩

namespace Shorthand

/-- A standard form ends in a character that the clean-up keeps, or in the semicolon of a declaration
behind one. -/
theorem exists_trims_standard (s : Shorthand) (w : Keyword) (isAsync : Bool) (params : List Char)
    {body : List Char} (hb : s.body.isBlock = false → ∃ trimmed, Trims body trimmed) :
    ∃ trimmed, Trims (s.standard w isAsync params body) trimmed := by
  have hsolid : Solid (s.standardBody body ++ if s.body.isBlock then ['}'] else []) := by
    unfold standardBody
    cases hblock : s.body.isBlock with
    | true => exact ⟨body, '}', rfl, by decide⟩
    | false =>
      obtain ⟨trimmed, ht⟩ := hb hblock
      simpa [ht.clean] using ht.solid
  have hfront := hsolid.append (s.standardFront w isAsync ++ (params ++ s.standardMiddle))
  rw [standard_eq, standardClose]
  cases s.name.isSome with
  | true => exact ⟨_, hfront, Or.inr (by simp)⟩
  | false => exact ⟨_, ⟨_, ')', by simp only [← List.append_assoc]; rfl, by decide⟩, Or.inl rfl⟩

end Shorthand

namespace Outline

/-- What is rendered behind text that stays as it is is all that is trimmed, if there is any. -/
theorem exists_trims_append {k : Context} {joined : Bool} (front : List Char) {rest : List Char} {w : Keyword}
    (h : Solid (front ++ rest)) (hrest : Solid rest → ∃ trimmed, Trims ((read k joined rest).render w) trimmed) :
    ∃ trimmed, Trims (front ++ (read k joined rest).render w) trimmed := by
  by_cases hnil : rest = []
  · subst hnil
    rw [List.append_nil] at h
    rw [read_nil, render, List.append_nil]
    exact ⟨front, Trims.refl h⟩
  · obtain ⟨trimmed, ht⟩ := hrest (h.of_append _ hnil)
    exact ⟨_, ht.append front⟩

/-- Where a text ends in a character that the clean-up keeps, its rendering is trimmed of at most one
semicolon. -/
theorem exists_trims_render (k : Context) (joined : Bool) (cs : List Char) (w : Keyword) (h : Solid cs) :
    ∃ trimmed, Trims ((read k joined cs).render w) trimmed := by
  induction k, joined, cs using read_induction with
  | nil => exact absurd h (by simp [Solid])
  | opening k joined cs o hcode ho ihParams ihBody ihRest =>
    rw [Opening.read?_append ho, List.append_cons] at h
    rw [read_of_some hcode ho, render]
    by_cases hrest : o.rest = []
    · rw [hrest, read_nil, render, List.append_nil]
      refine o.shorthand.exists_trims_standard w _ _ fun hblock => ihBody ?_
      -- An expression at the end of the text ends where the text does.
      obtain ⟨hspans, -⟩ := Opening.read?_spans ho
      rcases hspans.body with ⟨-, hkind, -⟩ | ⟨-, hne, hclose, -⟩
      · rw [hkind] at hblock
        simp [Body.isBlock] at hblock
      · rw [hrest, Shorthand.span, hclose, List.append_nil, List.append_nil, ← List.append_assoc] at h
        exact h.of_append _ hne
    · rw [← List.append_assoc] at h
      obtain ⟨trimmed, ht⟩ := ihRest (h.of_append _ hrest)
      exact ⟨_, ht.append _⟩
  | leftover k joined cs hcode hread ih =>
    rw [hread]
    exact exists_trims_append [sigil] h ih
  | step k joined c cs hs hread ih =>
    rw [← firstStep_append k c cs] at h
    rw [hread]
    exact exists_trims_append _ h ih

end Outline

/-! ## Brackets of the standard form -/

theorem keeps_of_isPlain {cs : List Char} (h : ∀ c ∈ cs, isPlain c = true) (stack : List Bracket) :
    Keeps openAfter? stack cs := by
  have hchars : ∀ c ∈ cs, isQuiet c = true ∧ c ∉ Bracket.all := fun c hc => by
    simpa [isPlain] using h c hc
  have hquiet : Quiet cs := fun c hc => (hchars c hc).1
  exact balancing_openAfter?.keeps_of_lacks hquiet.run
    (lacks_of_not_mem fun c hc hm => (hchars c hm).2 hc) (Or.inl trivial)

theorem apart_of_isPlain {xs : List Char} (h : ∀ c ∈ xs, isPlain c = true) (ys : List Char) :
    Apart xs ys := by
  have hquiet : Quiet xs := fun c hc => by
    have hc := h c hc
    simp only [isPlain, Bool.and_eq_true] at hc
    exact hc.1
  exact hquiet.apart ys

section Standard
variable {stack : List Bracket} {xs ys params body function : List Char}

theorem keeps_plain_append (hx : ∀ c ∈ xs, isPlain c = true) (hy : Keeps openAfter? stack ys) :
    Keeps openAfter? stack (xs ++ ys) :=
  (keeps_of_isPlain hx stack).append hy (apart_of_isPlain hx ys)

theorem keeps_around_append (b : Bracket) (hx : WellFormed xs) (hy : Keeps openAfter? stack ys) :
    Keeps openAfter? stack (b.around xs ++ ys) :=
  (balancing_openAfter?.keeps_around stack b fun inner _ => Closes.keeps hx inner).append hy
    (b.apart_around xs ys)

namespace Head

theorem keeps_withBlock (h : Head) (hp : WellFormed params) (hb : WellFormed body)
    (stack : List Bracket) : Keeps openAfter? stack (h.withBlock params body) := by
  have hblock : Keeps openAfter? stack (Bracket.curly.around body ++ []) :=
    keeps_around_append .curly hb (keeps_of_isPlain (by simp) stack)
  rw [List.append_nil] at hblock
  unfold withBlock
  refine keeps_plain_append (by cases h.isAsync <;> decide) ?_
  cases h.generator with
  | true =>
    simp only [if_true, List.append_assoc]
    exact keeps_plain_append (by decide) (keeps_around_append .paren hp
      (keeps_plain_append (by decide) hblock))
  | false =>
    simp only [Bool.false_eq_true, if_false, List.append_assoc]
    exact keeps_around_append .paren hp (keeps_plain_append (by decide) hblock)

theorem keeps_withExpression (h : Head) (hp : WellFormed params) (hb : WellFormed body)
    (stack : List Bracket) : Keeps openAfter? stack (h.withExpression params body) := by
  unfold withExpression
  simp only [List.append_assoc]
  exact keeps_plain_append (by cases h.isAsync <;> decide)
    (keeps_around_append .paren hp (keeps_plain_append (by decide) (Closes.keeps hb stack)))

theorem keeps_declare (h : Head) (hname : ∀ name ∈ h.name, ∀ c ∈ name, isPlain c = true) (w : Keyword)
    (hf : ∀ stack, Keeps openAfter? stack function) (stack : List Bracket) :
    Keeps openAfter? stack (h.declare w false function) := by
  unfold declare
  cases hn : h.name with
  | none => exact balancing_openAfter?.keeps_around stack .paren fun inner _ => hf inner
  | some name =>
    have hsemi : Keeps openAfter? stack (function ++ [';']) :=
      (hf stack).append (keeps_of_isPlain (by decide) stack) (apart_cons (by decide) _ _)
    have hkeyword : ∀ c ∈ w.name.toList, isPlain c = true := by cases w <;> decide
    have hspace : ∀ c ∈ [' '], isPlain c = true := by decide
    simp only [Bool.false_eq_true, if_false, List.append_assoc, List.cons_append]
    exact keeps_plain_append hkeyword (keeps_plain_append hspace
      (keeps_plain_append (hname name hn) (keeps_plain_append (by decide) hsemi)))

end Head

end Standard

theorem Shorthand.keeps_standard {s : Shorthand}
    (hname : ∀ name ∈ s.name, ∀ c ∈ name, Identifier.isContinue c = true) (w : Keyword) (isAsync : Bool)
    {params body : List Char} (hp : WellFormed params) (hb : WellFormed (s.standardBody body))
    (stack : List Bracket) : Keeps openAfter? stack (s.standard w isAsync params body) := by
  have hplain : ∀ name ∈ s.name, ∀ c ∈ name, isPlain c = true := fun name hn c hc =>
    isPlain_of_isContinue (hname name hn c hc)
  have hdeclare {function : List Char} (hf : ∀ stack, Keeps openAfter? stack function) :=
    Head.keeps_declare ⟨isAsync, s.generator, s.name⟩ hplain w hf stack
  unfold standardBody at hb
  cases hbody : s.body with
  | block block =>
    have hhas : s.Has ⟨isAsync, s.generator, s.name⟩ s.params (.block block) := ⟨rfl, rfl, rfl, hbody⟩
    rw [hbody] at hb
    rw [hhas.standard_block]
    exact hdeclare (Head.keeps_withBlock _ hp hb)
  | expression expr =>
    have hhas : s.Has ⟨isAsync, s.generator, s.name⟩ s.params (.expression expr) := ⟨rfl, rfl, rfl, hbody⟩
    rw [hbody] at hb
    rw [hhas.standard_expression]
    exact hdeclare (Head.keeps_withExpression _ hp hb)

namespace Outline

theorem closes_render {k : Context} (hk : k.Settled) (joined : Bool) (cs : List Char) (w : Keyword)
    {stack : List Bracket} (h : Closes k stack cs) : Closes k stack ((read k joined cs).render w) := by
  induction k, joined, cs using read_induction generalizing stack with
  | nil => rwa [read_nil]
  | opening k joined cs o hcode ho ihParams ihBody ihRest =>
    obtain rfl := hk hcode
    have hclosed := Opening.read?_closed h ho
    have hbody := ihBody hk hclosed.body
    -- The clean-up of an expression body takes away no more than one semicolon.
    have hstandardBody :
        WellFormed (o.shorthand.standardBody ((read .start false o.shorthand.body.text).render w)) := by
      unfold Shorthand.standardBody
      split
      · exact hbody
      · rename_i hblock
        obtain ⟨trimmed, ht⟩ := exists_trims_render .start false o.shorthand.body.text w
          (hclosed.solid (by simpa using hblock))
        rw [ht.clean]
        exact ht.wellFormed hbody
    have hstandard := Shorthand.keeps_standard (Opening.isContinue_name ho) w o.gap.isSome
      (ihParams hk hclosed.params) hstandardBody stack
    rw [read_of_opening ho, render,
      Closes.append_iff hstandard (hstandard.joins (o.shorthand.apart_standard _ _ _ _ _))]
    exact ihRest hk hclosed.rest
  | leftover k joined cs hcode hread ih =>
    obtain rfl := hk hcode
    rw [Closes.plain_cons_iff (by decide)] at h
    rw [hread, render, Closes.plain_cons_iff (by decide)]
    exact ih hk h
  | step k joined c cs hs hread ih =>
    obtain ⟨stack', hopen, hrest⟩ := (Closes.iff_of_trace_eq (trace_cons k c cs)).mp h
    rw [hread, render, Closes.iff_of_trace_eq (trace_step_render k c cs List.prefix_rfl)]
    exact ⟨stack', hopen, ih (Context.step_settled hk c _) hrest⟩

end Outline

/-- The expansion of a text that ends in code with its brackets nested ends in code too, with its
brackets nested, be there sigils left over or not. -/
theorem wellFormed_expandText (w : Keyword) (source : String) (h : WellFormed source.toList) :
    WellFormed (expandText w source).toList := by
  rw [expandText, String.toList_ofList, expand]
  split
  · exact Outline.closes_render Context.start_settled false source.toList w h
  · exact h

theorem wellFormed_expandText_of_nested :
    WellFormed (expandText .let_ "\x7basync ƒ f(a = ['(']) ƒ g /* \x7d */ a // c
\x7d ƒ*(b) [ƒ \x7bb\x7d]").toList :=
  wellFormed_expandText .let_ "\x7basync ƒ f(a = ['(']) ƒ g /* \x7d */ a // c
\x7d ƒ*(b) [ƒ \x7bb\x7d]" (by decide +kernel)

end Florin
