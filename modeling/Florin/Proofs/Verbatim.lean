import Florin.Proofs.FixedPoint
import Florin.Proofs.Lexical.Literals

/-! # Literals that are kept

What a string, a comment or a template says is the program's own business: it stands in the expansion as it
stands in the source, with the shorthands around it in their standard forms. Only the clean-up of an expanded
expression may reach into a literal, as it takes blanks and semicolons away without a look at what they belong
to: into one that the text leaves open, or into the line break of a comment.
-/
namespace Florin
open Text Lexical

/-! ## Texts with literals in them -/

/-- The literals appear in the text in this order, one behind the other, each as a piece of the text. -/
def Appear (r : List Char → Literal → Prop) : List Literal → List Char → Prop
  | [], _ => True
  | l :: ls, cs => ∃ before piece after, cs = before ++ (piece ++ after) ∧ r piece l ∧ Appear r ls after

namespace Appear
variable {r r' : List Char → Literal → Prop} {ls ms : List Literal} {l : Literal} {xs ys : List Char}

theorem mono (h : Appear r ls xs) (hr : ∀ l ∈ ls, ∀ p, r p l → r' p l) : Appear r' ls xs := by
  induction ls generalizing xs with
  | nil => trivial
  | cons l ls ih =>
    obtain ⟨before, piece, after, hxs, hp, hrest⟩ := h
    exact ⟨before, piece, after, hxs, hr l List.mem_cons_self piece hp,
      ih hrest fun m hm => hr m (List.mem_cons_of_mem l hm)⟩

theorem behind (h : Appear r ls xs) (front : List Char) : Appear r ls (front ++ xs) := by
  cases ls with
  | nil => trivial
  | cons l ls =>
    obtain ⟨before, piece, after, rfl, hp, hrest⟩ := h
    exact ⟨front ++ before, piece, after, (List.append_assoc _ _ _).symm, hp, hrest⟩

theorem append (hx : Appear r ls xs) (hy : Appear r ms ys) : Appear r (ls ++ ms) (xs ++ ys) := by
  induction ls generalizing xs with
  | nil => exact hy.behind xs
  | cons l ls ih =>
    obtain ⟨before, piece, after, rfl, hp, hrest⟩ := hx
    exact ⟨before, piece, after ++ ys, by simp only [List.append_assoc], hp, ih hrest⟩

theorem followed (h : Appear r ls xs) (back : List Char) : Appear r ls (xs ++ back) := by
  have hnil : Appear r [] back := trivial
  simpa using h.append hnil

theorem concat_imp {l' : Literal} (h : Appear r (ls ++ [l]) xs) (hr : ∀ p, r p l → r p l') :
    Appear r (ls ++ [l']) xs := by
  induction ls generalizing xs with
  | nil =>
    obtain ⟨before, piece, after, hxs, hp, -⟩ := h
    exact ⟨before, piece, after, hxs, hr piece hp, trivial⟩
  | cons m ls ih =>
    obtain ⟨before, piece, after, hxs, hp, hrest⟩ := h
    exact ⟨before, piece, after, hxs, hp, ih hrest⟩

end Appear

/-- Blanks and semicolons that are taken away at the end of a text are taken from the last literal at most. -/
theorem Appear.trim {r r' : List Char → Literal → Prop} {ls : List Literal} {out idle : List Char}
    (h : Appear r ls (out ++ idle)) (hidle : ∀ c ∈ idle, isIdle c = true)
    (hhead : ∀ l ∈ ls, ∀ p, r p l → ∃ c more, p = c :: more ∧ isIdle c = false)
    (hr : ∀ l ∈ ls, ∀ p, r p l → r' p l)
    (hlast : ∀ l ∈ ls.getLast?, ∀ p more, r (p ++ more) l → (∀ c ∈ more, isIdle c = true) → r' p l) :
    Appear r' ls out := by
  induction ls generalizing out with
  | nil => trivial
  | cons l ls ih =>
    obtain ⟨before, piece, after, hcut, hp, hrest⟩ := h
    cases ls with
    | nil =>
      obtain ⟨c, more, rfl, hc⟩ := hhead l List.mem_cons_self piece hp
      obtain ⟨back, rfl, hback⟩ := exists_of_append_idle hcut hidle hc
      rcases List.append_eq_append_iff.mp hback with ⟨kept, rfl, hkept⟩ | ⟨kept, rfl, hkept⟩
      · exact ⟨before, c :: back, [], by simp, hlast l rfl _ kept hp
          fun d hd => hidle d (by simp [hkept, hd]), trivial⟩
      · exact ⟨before, c :: more, kept, by simp, hr l List.mem_cons_self _ hp, trivial⟩
    | cons m ls =>
      obtain ⟨gap, next, rest, hafter, hq, -⟩ := id hrest
      obtain ⟨c, more, rfl, hc⟩ := hhead m (by simp) next hq
      rw [hafter] at hcut
      have hcut : out ++ idle = (before ++ (piece ++ gap)) ++ c :: (more ++ rest) := by simpa using hcut
      obtain ⟨back, rfl, hback⟩ := exists_of_append_idle hcut hidle hc
      have hnext : gap ++ c :: back ++ idle = after := by
        rw [hafter, List.append_assoc, List.cons_append, hback, List.cons_append]
      refine ⟨before, piece, gap ++ c :: back, by simp, hr l List.mem_cons_self piece hp, ?_⟩
      exact ih (hnext ▸ hrest) (fun k hk => hhead k (List.mem_cons_of_mem l hk))
        (fun k hk => hr k (List.mem_cons_of_mem l hk)) fun k hk => hlast k (by simpa using hk)

/-! ## What is left of a literal -/

/-- The piece is what is left of the literal: all of it, or else all but blanks and semicolons at its end where
it is left open, or where it is a comment with its line break behind which a cut is made. -/
def Kept (cut : Prop) (piece : List Char) (l : Literal) : Prop :=
  piece = l.text ∨ (∃ idle, l.text = piece ++ idle ∧ ∀ c ∈ idle, isIdle c = true) ∧
    (l.closed = false ∨ cut ∧ l.text.getLast? = some '\n')

namespace Kept
variable {cut cut' : Prop} {piece more : List Char} {l : Literal}

theorem mono (h : Kept cut piece l) (hcut : cut → cut') : Kept cut' piece l :=
  h.imp_right fun ⟨hidle, hl⟩ => ⟨hidle, hl.imp_right fun ⟨hc, he⟩ => ⟨hcut hc, he⟩⟩

theorem exists_idle (h : Kept cut piece l) : ∃ idle, l.text = piece ++ idle ∧ ∀ c ∈ idle, isIdle c = true := by
  rcases h with rfl | ⟨hidle, -⟩
  · exact ⟨[], by simp⟩
  · exact hidle

theorem head (h : Kept cut piece l) (hl : l.Sound) : ∃ c more, piece = c :: more ∧ isIdle c = false := by
  obtain ⟨idle, htext, hidle⟩ := h.exists_idle
  obtain ⟨c, more, hhead, hc⟩ := hl.head
  rw [hhead] at htext
  cases piece with
  | nil =>
    rw [List.nil_append] at htext
    exact absurd (hidle c (htext ▸ List.mem_cons_self)) (by simp [hc])
  | cons d piece => exact ⟨d, piece, rfl, (List.cons.inj htext).1 ▸ hc⟩

/-- More may be taken away at the end of an open literal, and behind a cut. -/
theorem trim (h : Kept cut (piece ++ more) l) (hmore : ∀ c ∈ more, isIdle c = true) (hl : l.Sound)
    (hcut : l.closed = true → cut') : Kept cut' piece l := by
  obtain ⟨idle, htext, hidle⟩ := h.exists_idle
  rw [List.append_assoc] at htext
  have hall : ∀ c ∈ more ++ idle, isIdle c = true := List.forall_mem_append.mpr ⟨hmore, hidle⟩
  by_cases hnil : more ++ idle = []
  · rw [hnil, List.append_nil] at htext
    exact Or.inl htext.symm
  · refine Or.inr ⟨⟨_, htext, hall⟩, ?_⟩
    cases hclosed : l.closed with
    | false => exact Or.inl rfl
    | true =>
      have hend := List.getLast?_eq_some_getLast hnil
      have hlast : l.text.getLast? = some ((more ++ idle).getLast hnil) := by
        rw [htext, List.getLast?_append_of_ne_nil _ hnil, hend]
      have hnewline := hl.last hclosed _ hlast (hall _ (List.getLast_mem hnil))
      exact Or.inr ⟨hcut hclosed, by rw [hlast, hnewline]⟩

/-- An open literal that goes on with blanks is kept without them. -/
theorem extend {text blanks : List Char} (h : Kept cut piece ⟨text, false⟩) (hb : ∀ c ∈ blanks, isBlank c = true) :
    Kept cut piece ⟨text ++ blanks, false⟩ := by
  obtain ⟨idle, htext, hidle⟩ := h.exists_idle
  refine Or.inr ⟨⟨idle ++ blanks, ?_, ?_⟩, Or.inl rfl⟩
  · rw [show text = piece ++ idle from htext, List.append_assoc]
  · exact List.forall_mem_append.mpr ⟨hidle, fun c hc => isIdle_of_isBlank (hb c hc)⟩

end Kept

section Trimming
variable {cut cut' : Prop} {ls : List Literal} {s : Shorthand} {body : List Char}

/-- The clean-up of an expression leaves its literals but for what it cuts. -/
theorem Appear.standardBody (h : Appear (Kept cut) ls body) (hls : ∀ l ∈ ls, l.Sound) (hcut : cut → cut')
    (hlast : ∀ l ∈ ls.getLast?, l.closed = true → cut') : Appear (Kept cut') ls (s.standardBody body) := by
  have hmono : ∀ l ∈ ls, ∀ p, Kept cut p l → Kept cut' p l := fun _ _ _ hp => hp.mono hcut
  obtain ⟨idle, hbody, hidle⟩ := s.standardBody_append body
  rw [← hbody] at h
  exact h.trim hidle (fun l hl p hp => hp.head (hls l hl)) hmono fun l hl p more hp hmore =>
    hp.trim hmore (hls l (List.mem_of_getLast? hl)) (hlast l hl)

end Trimming

/-! ## The literals of an expansion -/

/-- A step takes what is held of a literal on, or it closes the literal. -/
theorem appear_step {r : List Char → Literal → Prop} (hr : ∀ l : Literal, r l.text l) {k : Context}
    {held : List Char} {c : Char} {cs : List Char} {ls : List Literal} {xs : List Char}
    (h : Appear r ls (heldBehind held (firstStep k c cs) ++ xs)) :
    Appear r (closedBy held (firstStep k c cs) ++ ls) (held ++ ((firstStep k c cs).text ++ xs)) := by
  unfold heldBehind at h
  unfold closedBy
  by_cases hafter : (firstStep k c cs).after.isCode = true
  · rw [if_pos hafter, List.nil_append] at h
    by_cases hcode : k.isCode = true
    · rw [if_neg (by simp [hcode]), List.nil_append, ← List.append_assoc]
      exact h.behind _
    · rw [if_pos (by simp [hafter, hcode]), List.singleton_append, ← List.append_assoc]
      exact ⟨[], _, xs, rfl, hr ⟨_, true⟩, h⟩
  · rw [if_neg hafter, List.append_assoc] at h
    rw [if_neg (by simp [hafter]), List.nil_append]
    exact h

theorem appear_held {r : List Char → Literal → Prop} (hr : ∀ l : Literal, r l.text l) (held : List Char) :
    Appear r (literals held []) (held ++ []) := by
  rw [literals]
  split
  · trivial
  · exact ⟨[], held, [], rfl, hr ⟨held, false⟩, trivial⟩

theorem appear_literalsOf {r : List Char → Literal → Prop} (hr : ∀ l : Literal, r l.text l) (cs : List Char) :
    Appear r (literalsOf cs) cs := by
  suffices h : ∀ (k : Context) (held : List Char), Appear r (literals held (trace k cs)) (held ++ cs) from
    h .start []
  intro k held
  induction k, cs using step_induction generalizing held with
  | nil k => exact appear_held hr held
  | cons k c cs ih =>
    rw [trace_cons, literals, ← firstStep_append k c cs]
    exact appear_step hr (ih _)

namespace Outline

theorem literalsOf_opening {joined : Bool} {cs : List Char} {o : Opening} (ho : Opening.read? joined cs = some o) :
    literalsOf cs = literalsOf o.shorthand.params ++ literals [] (trace .start o.shorthand.body.text ++
      trace (Context.start.run o.shorthand.body.text) (o.shorthand.close ++ o.rest)) := by
  obtain ⟨hspans, hgap⟩ := Opening.read?_spans ho
  have hsigil (steps : List Step) : literals [] (⟨.start, [sigil], .start⟩ :: steps) = literals [] steps := rfl
  rw [literalsOf, Opening.trace_eq ho, hspans.trace_eq, literals_quiet_append (asyncPart_quiet hgap), hsigil,
    literals_quiet_append hspans.lead, literalsOf_append hspans.params, literals_quiet_append hspans.middle]

theorem literalsOf_closed {joined : Bool} {cs : List Char} {o : Opening} (ho : Opening.read? joined cs = some o)
    (hbody : Context.start.run o.shorthand.body.text = .start) : literalsOf cs =
      literalsOf o.shorthand.params ++ (literalsOf o.shorthand.body.text ++ literalsOf o.rest) := by
  have hclose := (Opening.read?_spans ho).1.close
  rw [literalsOf_opening ho, literalsOf_append hbody, hbody, hclose.joins, hclose.run,
    literals_quiet_append hclose, literalsOf, literalsOf, literalsOf]

theorem literalsOf_standard {s : Shorthand} (hname : ∀ name ∈ s.name, Quiet name) (w : Keyword) (isAsync : Bool)
    {params body : List Char} (hp : Context.start.run params = .start)
    (hb : Context.start.run (s.standardBody body) = .start) (ys : List Char) :
    literalsOf (s.standard w isAsync params body ++ ys) =
      literalsOf params ++ (literalsOf (s.standardBody body) ++ literalsOf ys) := by
  rw [literalsOf, Shorthand.trace_standard hname w isAsync hp hb,
    literals_quiet_append (Shorthand.standardFront_quiet hname w isAsync), literalsOf_append hp,
    literals_quiet_append s.standardMiddle_quiet, literalsOf_append hb,
    literals_quiet_append s.standardClose_quiet, literalsOf, literalsOf, literalsOf]

/-- The clean-up of an expression that stays in code takes no literal away. -/
theorem literalsOf_standardBody {s : Shorthand} {body : List Char} (hcut : .cut ∉ cutMark s body)
    (hb : Context.start.run body = .start) : literalsOf (s.standardBody body) = literalsOf body := by
  have hrun := run_standardBody hcut hb
  obtain ⟨idle, hbody, hidle⟩ := s.standardBody_append body
  have hquiet : Quiet idle := fun c hc => isQuiet_of_isIdle (hidle c hc)
  have hjoins : Joins .start (s.standardBody body) idle := by
    refine joins_of_isCode (by rw [hrun]; rfl) fun c d _ hd _ => ?_
    have hd := hidle d (List.mem_of_mem_head? hd)
    exact ⟨isIdle_ne (by decide) hd, isIdle_ne (by decide) hd⟩
  have hnone : literals [] (trace .start idle) = [] := literalsOf_quiet hquiet
  conv_rhs => rw [← hbody, literalsOf, hjoins, literalsOf_append hrun, hrun, hnone, List.append_nil]

/-- Without a cut, the literals of a rendering that ends in code are those of the source. -/
theorem literals_render {k : Context} (hk : k.Settled) (joined : Bool) (cs : List Char) (w : Keyword)
    (hcut : .cut ∉ (read k joined cs).marks w) (hcode : (k.run cs).isCode = true) {held : List Char}
    (hheld : Holding k held) :
    literals held (trace k ((read k joined cs).render w)) = literals held (trace k cs) := by
  induction k, joined, cs using read_induction generalizing held with
  | nil => rw [read_nil, render]
  | opening k joined cs o hk' ho ihParams ihBody ihRest =>
    obtain rfl := hk hk'
    obtain rfl := hheld.mpr rfl
    have hspans := (Opening.read?_spans ho).1
    rw [read_of_opening ho, marks] at hcut
    simp only [List.mem_append, not_or] at hcut
    obtain ⟨-, hcutParams, hcutBody, hcutMark, hcutRest⟩ := hcut
    have hbody := Opening.body_closed ho hcode
    have hrest : (Context.start.run o.rest).isCode = true := Opening.run_closed ho hbody ▸ hcode
    -- Without a cut, each of the three parts ends in code on its own, so the steps fall apart at their ends.
    have hparamsRun := Context.run_eq_start
      (run_render hk false _ w hcutParams (by rw [hspans.params]; rfl))
    have hbodyRun := Context.run_eq_start (run_render hk false _ w hcutBody (by rw [hbody]; rfl))
    have hstandard := literalsOf_standard hspans.name w o.gap.isSome hparamsRun
      (run_standardBody hcutMark hbodyRun) ((read .start o.joins o.rest).render w)
    rw [literalsOf_standardBody hcutMark hbodyRun] at hstandard
    have hP : literalsOf ((read .start false o.shorthand.params).render w) = literalsOf o.shorthand.params :=
      ihParams hk hcutParams (by rw [hspans.params]; rfl) holding_nil
    have hB : literalsOf ((read .start false o.shorthand.body.text).render w) =
      literalsOf o.shorthand.body.text := ihBody hk hcutBody (by rw [hbody]; rfl) holding_nil
    have hR : literalsOf ((read .start o.joins o.rest).render w) = literalsOf o.rest :=
      ihRest hk hcutRest hrest holding_nil
    have hsource := literalsOf_closed ho hbody
    rw [hP, hB, hR, ← hsource] at hstandard
    rw [read_of_opening ho]
    exact hstandard
  | leftover k joined cs hk' hread ih =>
    obtain rfl := hk hk'
    obtain rfl := hheld.mpr rfl
    rw [hread, cut_mem_leftover] at hcut
    rw [Context.run_cons_of_isQuiet isQuiet_sigil] at hcode
    rw [hread, render, trace_cons_of_isQuiet isQuiet_sigil, trace_cons_of_isQuiet isQuiet_sigil]
    exact ih hk hcut hcode holding_nil
  | step k joined c cs hs hread ih =>
    rw [hread, cut_mem_step] at hcut
    rw [Context.run_cons] at hcode
    rw [hread, render, trace_step_render k c cs List.prefix_rfl, trace_cons, literals, literals,
      ih (Context.step_settled hk c _) hcut hcode (.behind k held c cs)]

/-- The literals of a body that ends in code appear in its standard form. -/
theorem appear_closed_body {o : Opening} (hbody : Context.start.run o.shorthand.body.text = .start) (w : Keyword)
    {cut : Prop} (hcut : ¬cut → .cut ∉ (read .start false o.shorthand.body.text).marks w ∧
      .cut ∉ cutMark o.shorthand ((read .start false o.shorthand.body.text).render w))
    (h : Appear (Kept (.cut ∈ (read .start false o.shorthand.body.text).marks w)) (literalsOf o.shorthand.body.text)
      ((read .start false o.shorthand.body.text).render w)) :
    Appear (Kept cut) (literalsOf o.shorthand.body.text)
      (o.shorthand.standardBody ((read .start false o.shorthand.body.text).render w)) := by
  by_cases hc : cut
  · exact h.standardBody (sound_literalsOf _) (fun _ => hc) fun _ _ _ => hc
  · obtain ⟨hcutBody, hcutMark⟩ := hcut hc
    have hcode : (Context.start.run o.shorthand.body.text).isCode = true := by rw [hbody]; rfl
    have hrun := Context.run_eq_start (run_render Context.start_settled false _ w hcutBody hcode)
    have hsame : literalsOf ((read .start false o.shorthand.body.text).render w) = literalsOf o.shorthand.body.text :=
      literals_render Context.start_settled false _ w hcutBody hcode holding_nil
    rw [← hsame, ← literalsOf_standardBody hcutMark hrun]
    exact appear_literalsOf (fun _ => Or.inl rfl) _

/-- A body that leaves a literal open reaches to the end of the text, and so does the literal. -/
theorem exists_open_body {joined : Bool} {cs : List Char} {o : Opening} (ho : Opening.read? joined cs = some o)
    (hbody : Context.start.run o.shorthand.body.text ≠ .start) : (∀ c ∈ o.rest, isBlank c = true) ∧
      ∃ front last, literalsOf o.shorthand.body.text = front ++ [⟨last, false⟩] ∧
        literalsOf cs = literalsOf o.shorthand.params ++ (front ++ [⟨last ++ o.rest, false⟩]) := by
  have hspans := (Opening.read?_spans ho).1
  have hblank := (hspans.body_ends.resolve_left hbody).1
  have hopen : (Context.start.run o.shorthand.body.text).isCode = false := by
    rw [Bool.eq_false_iff]
    exact fun hcode => hbody (Context.run_eq_start hcode)
  obtain ⟨hclose, he⟩ : o.shorthand.close = [] ∧
      expression (o.shorthand.body.text ++ o.rest) = (o.shorthand.body.text, o.rest) := by
    rcases hspans.body with ⟨hrun, -, -⟩ | ⟨-, -, hclose, he⟩
    · exact absurd hrun hbody
    · exact ⟨hclose, he⟩
  have hline := run_expression_ne_lineComment (o.shorthand.body.text ++ o.rest)
  rw [he] at hline
  have hstay : ∀ s ∈ trace (Context.start.run o.shorthand.body.text) o.rest, s.after.isCode = false := by
    rw [trace_idle hline fun c hc => isIdle_of_isBlank (hblank c hc)]
    simpa using fun _ _ => hopen
  obtain ⟨front, last, hfirst, hmore⟩ := exists_literals_open holding_nil hopen hstay
  rw [spell_trace] at hmore
  refine ⟨hblank, front, last, hfirst, ?_⟩
  rw [literalsOf_opening ho, hclose, List.nil_append, hmore]

section Opening
variable {joined : Bool} {cs : List Char} {o : Opening} {w : Keyword} {cut : Prop} {ls : List Literal}

/-- Literals that appear in the parts of a shorthand and behind it appear in its rendering. -/
theorem appear_shorthand {r : List Char → Literal → Prop} {gap : Option (List Char)} {s : Shorthand}
    {params body rest : Outline} {ps bs : List Literal} (hparams : Appear r ps (params.render w))
    (hbody : Appear r bs (s.standardBody (body.render w) ++ (s.standardClose ++ rest.render w))) :
    Appear r (ps ++ bs) ((shorthand gap s params body rest).render w) := by
  rw [render, Shorthand.standard_eq]
  simp only [List.append_assoc]
  exact (hparams.append (hbody.behind _)).behind _

theorem appear_opening (ho : Opening.read? joined cs = some o)
    (hcut : .cut ∈ (read .start joined cs).marks w ↔ cut)
    (hparams : Appear (Kept (.cut ∈ (read .start false o.shorthand.params).marks w))
      (literalsOf o.shorthand.params) ((read .start false o.shorthand.params).render w))
    (hbody : Appear (Kept (.cut ∈ (read .start false o.shorthand.body.text).marks w))
      (literalsOf o.shorthand.body.text) ((read .start false o.shorthand.body.text).render w))
    (hrest : Appear (Kept (.cut ∈ (read .start o.joins o.rest).marks w)) (literalsOf o.rest)
      ((read .start o.joins o.rest).render w)) :
    Appear (Kept cut) (literalsOf cs) ((read .start joined cs).render w) := by
  rw [read_of_opening ho, cut_mem_shorthand] at hcut
  rw [read_of_opening ho]
  have hparams : Appear (Kept cut) _ _ := hparams.mono fun _ _ _ hp => hp.mono fun h => hcut.mp (by simp [h])
  have hrest : Appear (Kept cut) _ _ := hrest.mono fun _ _ _ hp => hp.mono fun h => hcut.mp (by simp [h])
  by_cases hclosed : Context.start.run o.shorthand.body.text = .start
  · have hnone (hc : ¬cut) := hcut.not.mpr hc
    simp only [not_or] at hnone
    have hclosedBody := appear_closed_body hclosed w (fun hc => ⟨(hnone hc).2.1, (hnone hc).2.2.1⟩) hbody
    rw [literalsOf_closed ho hclosed]
    exact appear_shorthand hparams (hclosedBody.append (hrest.behind _))
  · obtain ⟨hblank, front, last, hfirst, hsource⟩ := exists_open_body ho hclosed
    have hsound := sound_literalsOf o.shorthand.body.text
    rw [hfirst] at hbody hsound
    have hopen : Appear (Kept cut) (front ++ [⟨last, false⟩])
        (o.shorthand.standardBody ((read .start false o.shorthand.body.text).render w)) :=
      hbody.standardBody hsound (fun h => hcut.mp (by simp [h])) (by simp)
    rw [hsource]
    exact appear_shorthand hparams ((hopen.concat_imp fun p hp => hp.extend hblank).followed _)

end Opening

/-- The literals of a text appear in its rendering, in order. -/
theorem appear_render {k : Context} (hk : k.Settled) (joined : Bool) (cs : List Char) (w : Keyword)
    {held : List Char} (hheld : Holding k held) : Appear (Kept (.cut ∈ (read k joined cs).marks w))
      (literals held (trace k cs)) (held ++ (read k joined cs).render w) := by
  induction k, joined, cs using read_induction generalizing held with
  | nil =>
    rw [read_nil, render]
    exact appear_held (fun _ => Or.inl rfl) held
  | opening k joined cs o hk' ho ihParams ihBody ihRest =>
    obtain rfl := hk hk'
    obtain rfl := hheld.mpr rfl
    exact appear_opening ho Iff.rfl (ihParams hk holding_nil) (ihBody hk holding_nil) (ihRest hk holding_nil)
  | leftover k joined cs hk' hread ih =>
    obtain rfl := hk hk'
    obtain rfl := hheld.mpr rfl
    rw [hread, render, trace_cons_of_isQuiet isQuiet_sigil]
    exact ((ih hk holding_nil).mono fun _ _ _ hp => hp.mono cut_mem_leftover.mpr).behind [sigil]
  | step k joined c cs hs hread ih =>
    rw [hread, render, trace_cons, literals]
    refine appear_step (fun _ => Or.inl rfl) ?_
    exact (ih (Context.step_settled hk c _) (.behind k held c cs)).mono
      fun _ _ _ hp => hp.mono cut_mem_step.mpr

end Outline

/-- Every string, comment and template of the source stands in the expansion, in the order of the source and one
behind the other. Without a cut each of them stands there unchanged but for one that the source leaves open, and
that one loses blanks and semicolons at its end at most; with a cut so does a line comment. -/
theorem expandText_literals (w : Keyword) (source : String) :
    Appear (Kept (.cut ∈ (Outline.ofText source.toList).marks w)) (literalsOf source.toList)
      (expandText w source).toList := by
  rw [expandText, expand_eq_render, String.toList_ofList]
  exact Outline.appear_render Context.start_settled false source.toList w holding_nil

example : literalsOf "f('a' /* b */, ƒ `${c}` // d\n) \"e ".toList =
    [⟨"'a'".toList, true⟩, ⟨"/* b */".toList, true⟩, ⟨"`${c}`".toList, true⟩, ⟨"// d\n".toList, true⟩,
      ⟨"\"e ".toList, false⟩] := by
  decide +kernel

/-- A cut takes the line break of a comment away. -/
theorem expandText_literals_cut : literalsOf "ƒ [a // c\n;)".toList = [⟨"// c\n".toList, true⟩] ∧
    expandText .var "ƒ [a // c\n;)" = "(() => [a // c))" ∧
      ¬"// c\n".toList <:+: (expandText .var "ƒ [a // c\n;)").toList := by
  decide +kernel

end Florin
