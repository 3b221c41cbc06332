import Florin.Outline
import Florin.Proofs.Lexical.Extent

/-! # Spans of shorthands in a trace

Lead, middle and close of a shorthand are quiet, so they leave a scan in code where it was. The
parameters and a block end in code. The steps over the source of a shorthand therefore hold those
of a fresh scan over its parameters and those of a fresh scan over its body. Behind the span a scan
is in code again, unless an expression runs to the end of the text with a literal open.
-/
namespace Florin
open Text Lexical

theorem isQuiet_sigil : isQuiet sigil = true := by decide

theorem isQuiet_of_isContinue {c : Char} (h : Identifier.isContinue c = true) :
    isQuiet c = true := by
  have hne : ∀ b, Identifier.isContinue b = false → c ≠ b := by
    rintro b hb rfl
    simp [hb] at h
  simp [isQuiet, hne _ (show Identifier.isContinue '\'' = false by decide),
    hne _ (show Identifier.isContinue '"' = false by decide),
    hne _ (show Identifier.isContinue backtick = false by decide),
    hne _ (show Identifier.isContinue '/' = false by decide)]

/-- A text follows in another one after quiet characters only. -/
def QuietBefore (rest cs : List Char) : Prop := ∃ front, cs = front ++ rest ∧ Quiet front

theorem QuietBefore.refl (cs : List Char) : QuietBefore cs cs := ⟨[], rfl, quiet_nil⟩

theorem QuietBefore.trans {xs ys zs : List Char} (h : QuietBefore xs ys) (h' : QuietBefore ys zs) :
    QuietBefore xs zs := by
  obtain ⟨front, rfl, hf⟩ := h
  obtain ⟨front', rfl, hf'⟩ := h'
  exact ⟨front' ++ front, by rw [List.append_assoc], hf'.append hf⟩

theorem QuietBefore.cons {c : Char} (hc : isQuiet c = true) (cs : List Char) :
    QuietBefore cs (c :: cs) := ⟨[c], rfl, Quiet.cons hc quiet_nil⟩

theorem textBefore_append_left (front rest : List Char) : textBefore (front ++ rest) rest = front := by
  simp [textBefore]

theorem Stretch.after_eq {b : Stretch} {gap rest : List Char}
    (h : b.source = b.text ++ (gap ++ rest)) : b.after rest = gap := by
  rw [after, h, List.drop_left, textBefore_append_left]

theorem QuietBefore.textBefore {rest cs : List Char} (h : QuietBefore rest cs) :
    Quiet (textBefore cs rest) := by
  obtain ⟨front, rfl, hf⟩ := h
  rwa [textBefore_append_left]

theorem blanks_of_takeWhile (cs : List Char) : ∀ c ∈ cs.takeWhile isBlank, isBlank c = true :=
  fun _ hc => List.mem_takeWhile_imp hc

theorem skipBlanks_quietBefore (cs : List Char) : QuietBefore (skipBlanks cs) cs :=
  ⟨cs.takeWhile isBlank, List.takeWhile_append_dropWhile.symm, quiet_of_blank (blanks_of_takeWhile cs)⟩

theorem Identifier.isContinue_of_read? {cs name rest : List Char}
    (h : Identifier.read? cs = some (name, rest)) : ∀ c ∈ name, Identifier.isContinue c = true := by
  cases cs with
  | nil => simp [Identifier.read?] at h
  | cons c cs =>
    simp only [Identifier.read?, Option.ite_none_right_eq_some, Option.some.injEq,
      Prod.mk.injEq] at h
    obtain ⟨hc, rfl, -⟩ := h
    refine List.forall_mem_cons.mpr ⟨Identifier.isContinue_of_isStart hc, ?_⟩
    exact fun x hx => List.mem_takeWhile_imp hx

theorem Identifier.quiet_of_read? {cs name rest : List Char}
    (h : Identifier.read? cs = some (name, rest)) : Quiet name :=
  fun c hc => isQuiet_of_isContinue (Identifier.isContinue_of_read? h c hc)

namespace Shorthand

theorem readStar_quietBefore (cs : List Char) : QuietBefore (readStar cs).2 cs := by
  unfold readStar
  split
  · rename_i rest h
    have hstar := (skipBlanks_quietBefore rest).trans (QuietBefore.cons (c := '*') (by decide) rest)
    exact hstar.trans (h ▸ skipBlanks_quietBefore cs)
  · exact skipBlanks_quietBefore cs

theorem readName_quietBefore (cs : List Char) : QuietBefore (readName cs).2 cs := by
  unfold readName
  split
  · rename_i name rest h
    have hname : QuietBefore rest cs :=
      ⟨name, (Identifier.append_of_read? h).symm, Identifier.quiet_of_read? h⟩
    exact (skipBlanks_quietBefore rest).trans hname
  · exact QuietBefore.refl cs

theorem readName_isContinue {cs name : List Char} (h : (readName cs).1 = some name) :
    ∀ c ∈ name, Identifier.isContinue c = true := by
  unfold readName at h
  split at h
  · rename_i name' rest hr
    obtain rfl := Option.some.inj h
    exact Identifier.isContinue_of_read? hr
  · simp at h

theorem readName_quiet {cs name : List Char} (h : (readName cs).1 = some name) : Quiet name :=
  fun c hc => isQuiet_of_isContinue (readName_isContinue h c hc)

/-- Parameters are closed, and quiet text lies between them and the body. -/
theorem readParams?_spec {cs : List Char} {p : Stretch} (h : readParams? cs = some p) :
    QuietBefore p.source cs ∧ Context.start.run p.text = .start ∧
      ∃ gap, p.source = p.text ++ (gap ++ p.rest) ∧ Quiet gap ∧ (p.text = [] ∨ gap.head? = some ')') := by
  unfold readParams? at h
  split at h
  · rename_i inside
    obtain ⟨⟨inner, after⟩, he, rfl⟩ := Option.map_eq_some_iff.mp h
    obtain ⟨rfl, hrun, -⟩ := Bracket.enclosed?_eq_some_iff.mp he
    obtain ⟨front, hf, hq⟩ := skipBlanks_quietBefore after
    refine ⟨QuietBefore.cons (by decide) _, hrun, ')' :: front, ?_, Quiet.cons (by decide) hq, Or.inr rfl⟩
    simp only [List.cons_append]
    rw [← hf]
    rfl
  · obtain rfl := Option.some.inj h
    exact ⟨QuietBefore.refl cs, rfl, [], rfl, quiet_nil, Or.inl rfl⟩

/-- A block is closed by its brace; an expression is as long as it reads. -/
theorem readBody?_spec {generator : Bool} {cs : List Char} {body : Body} {b : Stretch}
    (h : readBody? generator cs = some (body, b)) :
    QuietBefore b.source cs ∧ body.text = b.text ∧
      ((body = .block b.text ∧ Context.start.run b.text = .start ∧ b.source = b.text ++ '}' :: b.rest) ∨
        (body = .expression b.text ∧ b.text ≠ [] ∧ expression b.source = (b.text, b.rest))) := by
  unfold readBody? at h
  split at h
  · rename_i inside
    obtain ⟨⟨inner, after⟩, he, hp⟩ := Option.map_eq_some_iff.mp h
    obtain ⟨rfl, rfl⟩ := Prod.mk.inj hp
    obtain ⟨rfl, hrun, -⟩ := Bracket.enclosed?_eq_some_iff.mp he
    exact ⟨QuietBefore.cons (by decide) _, rfl, Or.inl ⟨rfl, hrun, rfl⟩⟩
  · split at h
    · simp at h
    · rename_i hne
      obtain ⟨rfl, rfl⟩ := Prod.mk.inj (Option.some.inj h)
      refine ⟨QuietBefore.refl cs, rfl, Or.inr ⟨rfl, ?_, rfl⟩⟩
      simp_all

theorem isContinue_name {cs rest : List Char} {s : Shorthand} (h : read? cs = some (s, rest)) :
    ∀ name ∈ s.name, ∀ c ∈ name, Identifier.isContinue c = true := by
  obtain ⟨p, -, hb⟩ := Option.bind_eq_some_iff.mp h
  obtain ⟨⟨body, b⟩, -, he⟩ := Option.map_eq_some_iff.mp hb
  obtain ⟨rfl, rfl⟩ := Prod.mk.inj he
  intro name hn
  exact readName_isContinue hn

/-- How the parts of a shorthand lie in the text that it is read from. -/
structure Spans (s : Shorthand) (rest : List Char) : Prop where
  name : ∀ name ∈ s.name, Quiet name
  lead : Quiet s.lead
  params : Context.start.run s.params = .start
  middle : Quiet s.middle
  apart : ∀ xs, Apart s.params (s.middle ++ xs)
  body : (Context.start.run s.body.text = .start ∧ s.body = .block s.body.text ∧ s.close = ['}']) ∨
    (s.body = .expression s.body.text ∧ s.body.text ≠ [] ∧ s.close = [] ∧
      expression (s.body.text ++ rest) = (s.body.text, rest))

theorem read?_spans {cs rest : List Char} {s : Shorthand} (h : read? cs = some (s, rest)) :
    s.Spans rest := by
  obtain ⟨p, hp, hb⟩ := Option.bind_eq_some_iff.mp h
  obtain ⟨⟨body, b⟩, hbody, he⟩ := Option.map_eq_some_iff.mp hb
  obtain ⟨rfl, rfl⟩ := Prod.mk.inj he
  obtain ⟨hpsource, hprun, gap, hpgap, hgap, hgaphead⟩ := readParams?_spec hp
  obtain ⟨hbsource, htext, hb⟩ := readBody?_spec hbody
  obtain ⟨front, hfront, hqfront⟩ := hbsource
  have hmiddle : p.after b.source = gap ++ front :=
    Stretch.after_eq (by rw [hpgap, hfront, List.append_assoc])
  refine ⟨fun _ hn => readName_quiet hn, ?_, hprun, ?_, ?_, ?_⟩
  · exact ((hpsource.trans (readName_quietBefore _)).trans (readStar_quietBefore cs)).textBefore
  · rw [hmiddle]
    exact hgap.append hqfront
  · intro xs c d hc hd hs
    rw [hmiddle] at hd
    rcases hgaphead with hn | hparen
    · simp [hn] at hc
    · obtain rfl : ')' = d := by
        cases gap with
        | nil => simp at hparen
        | cons x gap => simp_all
      decide
  · rw [htext]
    rcases hb with ⟨hkind, hrun, hsource⟩ | ⟨hkind, hne, hexpr⟩
    · exact Or.inl ⟨hrun, hkind, Stretch.after_eq hsource⟩
    · have happ := expression_append b.source
      rw [hexpr] at happ
      exact Or.inr ⟨hkind, hne, Stretch.after_eq happ.symm, by rw [happ, hexpr]⟩

namespace Spans

variable {s : Shorthand} {rest : List Char}

theorem span_ne_nil (h : s.Spans rest) : s.span ≠ [] := by
  rcases h.body with ⟨-, -, hc⟩ | ⟨-, hne, -⟩ <;> simp_all [span]

theorem close (h : s.Spans rest) : Quiet s.close := by
  rcases h.body with ⟨-, -, hc⟩ | ⟨-, -, hc, -⟩ <;> rw [hc]
  · exact Quiet.cons (by decide) quiet_nil
  · exact quiet_nil

theorem body_joins (h : s.Spans rest) : Joins .start s.body.text (s.close ++ rest) := by
  rcases h.body with ⟨hrun, -, hc⟩ | ⟨-, -, hc, he⟩
  · rw [hc]
    exact joins_of_isCode (by rw [hrun]; rfl) (apart_cons (by decide) _ _)
  · have hj := expression_joins (s.body.text ++ rest)
    rw [he] at hj
    rwa [hc, List.nil_append]

/-- The steps over a shorthand and what follows: fresh scans over the parameters and the body make
the same steps. -/
theorem trace_eq (h : s.Spans rest) : trace .start (s.span ++ rest) =
    trace .start s.lead ++ (trace .start s.params ++ (trace .start s.middle ++
      (trace .start s.body.text ++ trace (Context.start.run s.body.text) (s.close ++ rest)))) := by
  have hparams : Joins .start s.params (s.middle ++ (s.body.text ++ (s.close ++ rest))) :=
    joins_of_isCode (by rw [h.params]; rfl) (h.apart _)
  simp only [span, List.append_assoc]
  rw [h.lead.joins, h.lead.run, hparams, h.params, h.middle.joins, h.middle.run, h.body_joins]

theorem run_eq (h : s.Spans rest) : Context.start.run (s.span ++ rest) =
    (Context.start.run s.body.text).run (s.close ++ rest) := by
  have hparams : Joins .start s.params (s.middle ++ (s.body.text ++ (s.close ++ rest))) :=
    joins_of_isCode (by rw [h.params]; rfl) (h.apart _)
  simp only [span, List.append_assoc]
  rw [(h.lead.joins _).run, h.lead.run, hparams.run, h.params, (h.middle.joins _).run, h.middle.run,
    h.body_joins.run]

/-- The body ends in code, or else the rest is blank and a literal stays open. -/
theorem body_ends (h : s.Spans rest) : Context.start.run s.body.text = .start ∨
    (∀ c ∈ rest, isBlank c = true) ∧ (Context.start.run (s.span ++ rest)).isCode = false := by
  rcases h.body with ⟨hrun, -⟩ | ⟨-, -, hc, he⟩
  · exact Or.inl hrun
  · have hends := expression_ends (s.body.text ++ rest)
    have hj := h.body_joins
    rw [he] at hends
    rw [h.run_eq, ← hj.run, hc, List.nil_append]
    exact hends

end Spans

end Shorthand

namespace Opening

/-- What is read behind the sigil is the shorthand. -/
theorem plain?_shorthand {cs : List Char} {o : Opening} (h : plain? cs = some o) :
    Shorthand.read? (o.shorthand.span ++ o.rest) = some (o.shorthand, o.rest) := by
  cases cs with
  | nil => simp [plain?] at h
  | cons c cs =>
    rw [plain?] at h
    obtain ⟨⟨s, rest⟩, hr, rfl⟩ := Option.map_eq_some_iff.mp (Option.ite_none_right_eq_some.mp h).2
    simp only
    rw [Shorthand.read?_append hr, hr]

theorem plain?_spans {cs : List Char} {o : Opening} (h : plain? cs = some o) :
    o.shorthand.Spans o.rest := Shorthand.read?_spans (plain?_shorthand h)

theorem async?_spans {cs : List Char} {o : Opening} (h : async? cs = some o) :
    o.shorthand.Spans o.rest ∧ ∃ gap, o.gap = some gap ∧ ∀ c ∈ gap, isBlank c = true := by
  unfold async? at h
  split at h
  · rename_i cs
    obtain ⟨p, hp, rfl⟩ := Option.map_eq_some_iff.mp h
    have hs := plain?_spans hp
    exact ⟨hs, _, rfl, blanks_of_takeWhile cs⟩
  · simp at h

/-- Before the sigil there is nothing, or the word `async` and blanks. -/
theorem read?_spans {joined : Bool} {cs : List Char} {o : Opening} (h : read? joined cs = some o) :
    o.shorthand.Spans o.rest ∧ (∀ gap ∈ o.gap, ∀ c ∈ gap, isBlank c = true) := by
  rcases Option.or_eq_some_iff.mp h with hp | ⟨-, ha⟩
  · exact ⟨plain?_spans hp, by simp [(plain?_append hp).1]⟩
  · obtain ⟨hs, gap, hg, hb⟩ := async?_spans (Option.ite_none_left_eq_some.mp ha).2
    refine ⟨hs, fun gap' hg' => ?_⟩
    obtain rfl := Option.some.inj (hg.symm.trans hg')
    exact hb

theorem read?_shorthand {joined : Bool} {cs : List Char} {o : Opening} (h : read? joined cs = some o) :
    Shorthand.read? (o.shorthand.span ++ o.rest) = some (o.shorthand, o.rest) := by
  rcases Option.or_eq_some_iff.mp h with hp | ⟨-, ha⟩
  · exact plain?_shorthand hp
  · have ha := (Option.ite_none_left_eq_some.mp ha).2
    unfold async? at ha
    split at ha
    · obtain ⟨p, hp, rfl⟩ := Option.map_eq_some_iff.mp ha
      have hread := plain?_shorthand hp
      exact hread
    · simp at ha

theorem isContinue_name {joined : Bool} {cs : List Char} {o : Opening} (h : read? joined cs = some o) :
    ∀ name ∈ o.shorthand.name, ∀ c ∈ name, Identifier.isContinue c = true :=
  Shorthand.isContinue_name (read?_shorthand h)

end Opening

theorem asyncPart_quiet {gap : Option (List Char)} (h : ∀ g ∈ gap, ∀ c ∈ g, isBlank c = true) :
    Quiet (asyncPart gap) := by
  cases gap with
  | none => exact quiet_nil
  | some gap => exact Quiet.append (by decide) (quiet_of_blank (h gap rfl))

/-- The steps from an opening on: those over the characters before the sigil, the sigil, and those
over the shorthand and what follows. -/
theorem Opening.trace_eq {joined : Bool} {cs : List Char} {o : Opening}
    (h : read? joined cs = some o) : trace .start cs =
      trace .start (asyncPart o.gap) ++
        (⟨.start, [sigil], .start⟩ :: trace .start (o.shorthand.span ++ o.rest)) := by
  have hq := asyncPart_quiet (read?_spans h).2
  rw [read?_append h, hq.joins, hq.run, trace_cons_of_isQuiet isQuiet_sigil]

theorem Opening.run_eq {joined : Bool} {cs : List Char} {o : Opening}
    (h : read? joined cs = some o) :
    Context.start.run cs = Context.start.run (o.shorthand.span ++ o.rest) := by
  have hq := asyncPart_quiet (read?_spans h).2
  rw [read?_append h, (hq.joins _).run, hq.run, Context.run_cons_of_isQuiet isQuiet_sigil]

/-- In a text that ends in code, so does the body of what opens it. -/
theorem Opening.body_closed {joined : Bool} {cs : List Char} {o : Opening} (h : read? joined cs = some o)
    (hcode : (Context.start.run cs).isCode = true) : Context.start.run o.shorthand.body.text = .start := by
  rcases (read?_spans h).1.body_ends with hclosed | ⟨-, hopen⟩
  · exact hclosed
  · rw [run_eq h, hopen] at hcode
    exact absurd hcode (by decide)

theorem Opening.run_closed {joined : Bool} {cs : List Char} {o : Opening} (h : read? joined cs = some o)
    (hbody : Context.start.run o.shorthand.body.text = .start) : Context.start.run cs = Context.start.run o.rest := by
  have hspans := (read?_spans h).1
  rw [run_eq h, hspans.run_eq, hbody, (hspans.close.joins _).run, hspans.close.run]

end Florin
