import Florin.Proofs.Rendering
import Florin.Site

/-! # Leftover sigils and the sites of a result

The sites of a result are the sigils that its own scan meets in code. Up to the first cut these are
the leftover sigils of the outline and the sigils in names, each once. So a leftover sigil can only
escape where it follows a cut, and a site that is no leftover sigil is a sigil in a name, unless a
sigil follows a cut.
-/
namespace Florin
open Text Lexical

/-- How many sigils a scan meets in code. -/
def codeSigils (k : Context) (cs : List Char) : Nat :=
  (trace k cs).countP fun s => s.isCodeChar sigil

theorem length_leftoverSites (cs : List Char) : (leftoverSites cs).length = codeSigils .start cs := by
  have hsteps (p : Site) (steps : List Step) :
      (Site.ofSteps p steps).length = steps.countP fun s => s.isCodeChar sigil := by
    induction steps generalizing p with
    | nil => rfl
    | cons s steps ih =>
      rw [Site.ofSteps, List.countP_cons]
      split <;> simp [ih]
  exact hsteps .start (trace .start cs)

section Counting
variable {k : Context} {xs ys : List Char}

theorem codeSigils_append (h : Joins k xs ys) :
    codeSigils k (xs ++ ys) = codeSigils k xs + codeSigils (k.run xs) ys := by
  rw [codeSigils, h, List.countP_append]
  rfl

theorem codeSigils_cons (k : Context) (c : Char) (cs : List Char) : codeSigils k (c :: cs) =
    codeSigils (firstStep k c cs).after (behindStep k c cs) + if k.isCode && decide (c = sigil) then 1 else 0 := by
  rw [codeSigils, trace_cons, List.countP_cons, isCodeChar_firstStep]
  rfl

theorem codeSigils_eq_zero {cs : List Char} (h : sigil ∉ cs) : codeSigils k cs = 0 := by
  induction k, cs using step_induction with
  | nil => rfl
  | cons k c cs ih =>
    have hc : c ≠ sigil := fun hc => h (by simp [hc])
    rw [codeSigils_cons, ih fun hm => h (List.mem_cons_of_mem c ((behindStep_suffix k c cs).subset hm))]
    simp [hc]

/-- Behind a text the scan goes on with the next text, or in it if a pair lies over both. -/
theorem exists_codeSigils_append (k : Context) (xs ys : List Char) : ∃ k' ys', ys' <:+ ys ∧
    codeSigils k (xs ++ ys) = codeSigils k xs + codeSigils k' ys' := by
  induction k, xs using step_induction with
  | nil k => exact ⟨k, ys, List.suffix_refl ys, (Nat.zero_add _).symm⟩
  | cons k c xs ih =>
    rw [List.cons_append, codeSigils_cons, codeSigils_cons]
    by_cases hxs : xs = []
    · subst hxs
      have hnil : codeSigils (firstStep k c []).after (behindStep k c []) = 0 := codeSigils_eq_zero (by simp [behindStep])
      exact ⟨(firstStep k c ys).after, _, behindStep_suffix k c ys, by rw [List.nil_append, hnil]; omega⟩
    · obtain ⟨hstep, hbehind⟩ := firstStep_append_of_ne_nil k c hxs ys
      obtain ⟨k', ys', hs, he⟩ := ih
      exact ⟨k', ys', hs, by rw [hstep, hbehind, he]; omega⟩

theorem codeSigils_le_append (k : Context) (xs ys : List Char) :
    codeSigils k xs ≤ codeSigils k (xs ++ ys) := by
  obtain ⟨k', ys', -, he⟩ := exists_codeSigils_append k xs ys
  omega

theorem codeSigils_append_of_not_mem (k : Context) (xs : List Char) {ys : List Char}
    (h : sigil ∉ ys) : codeSigils k (xs ++ ys) = codeSigils k xs := by
  obtain ⟨k', ys', hs, he⟩ := exists_codeSigils_append k xs ys
  rw [he, codeSigils_eq_zero fun hm => h (hs.subset hm), Nat.add_zero]

theorem codeSigils_of_quiet {cs : List Char} (h : Quiet cs) : codeSigils .start cs = cs.count sigil := by
  rw [codeSigils, h.trace, List.countP_map, List.count_eq_countP]
  refine List.countP_congr fun c _ => ?_
  simp [Step.isCodeChar, Context.isCode, Context.start]

end Counting

/-! ## Marks up to the first cut -/

/-- The sigil of the mark stands in code. -/
def Mark.isVisible : Mark → Bool
  | .leftover | .inName => true
  | .hidden | .cut => false

def beforeCut (ms : List Mark) : List Mark := ms.takeWhile (· ≠ .cut)

def fromCut (ms : List Mark) : List Mark := ms.dropWhile (· ≠ .cut)

theorem beforeCut_of_not_mem {ms : List Mark} (h : .cut ∉ ms) (ns : List Mark) :
    beforeCut (ms ++ ns) = ms ++ beforeCut ns ∧ fromCut (ms ++ ns) = fromCut ns := by
  have hne : ∀ m ∈ ms, decide (m ≠ Mark.cut) = true := by
    rintro m hm
    simpa using ne_of_mem_of_not_mem hm h
  exact ⟨List.takeWhile_append_of_pos hne, List.dropWhile_append_of_pos hne⟩

theorem beforeCut_of_mem {ms : List Mark} (h : .cut ∈ ms) (ns : List Mark) :
    beforeCut (ms ++ ns) = beforeCut ms ∧ fromCut (ms ++ ns) = fromCut ms ++ ns := by
  induction ms with
  | nil => simp at h
  | cons m ms ih =>
    by_cases hm : m = .cut
    · subst hm
      exact ⟨rfl, rfl⟩
    · obtain ⟨hb, hf⟩ := ih ((List.mem_cons.mp h).resolve_left (Ne.symm hm))
      simp only [beforeCut, fromCut] at hb hf ⊢
      rw [List.cons_append, List.takeWhile_cons_of_pos (by simpa using hm),
        List.takeWhile_cons_of_pos (by simpa using hm), List.dropWhile_cons_of_pos (by simpa using hm),
        List.dropWhile_cons_of_pos (by simpa using hm), hb, hf]
      exact ⟨rfl, rfl⟩

theorem beforeCut_eq_self {ms : List Mark} (h : .cut ∉ ms) : beforeCut ms = ms := by
  simpa [beforeCut] using (beforeCut_of_not_mem h []).1

/-- If only cuts follow a cut in joined marks, only cuts follow one in the first; and unless it is in the second,
the second are only cuts. -/
theorem fromCut_append {ms ns : List Mark} (h : ∀ m ∈ fromCut (ms ++ ns), m = .cut) :
    (∀ m ∈ fromCut ms, m = .cut) ∧
      ((.cut ∉ ms ∧ ∀ m ∈ fromCut ns, m = .cut) ∨ ∀ m ∈ ns, m = .cut) := by
  by_cases hcut : .cut ∈ ms
  · rw [(beforeCut_of_mem hcut ns).2] at h
    exact ⟨fun m hm => h m (List.mem_append_left ns hm), .inr fun m hm => h m (List.mem_append_right _ hm)⟩
  · rw [(beforeCut_of_not_mem hcut ns).2] at h
    have hnone : fromCut ms = [] := by simpa [fromCut] using (beforeCut_of_not_mem hcut []).2
    exact ⟨by simp [hnone], .inl ⟨hcut, h⟩⟩

/-- Then only cuts follow a cut in the second marks too. -/
theorem fromCut_of_append {ms ns : List Mark} (h : ∀ m ∈ fromCut (ms ++ ns), m = .cut) :
    ∀ m ∈ fromCut ns, m = .cut :=
  (fromCut_append h).2.elim And.right fun hall m hm => hall m (List.dropWhile_suffix _ |>.subset hm)

/-- The scan of a text meets the sigils of its marks up to the first cut, and no others unless a
sigil follows a cut. Every sigil of the text is marked. -/
structure Shows (k : Context) (text : List Char) (ms : List Mark) : Prop where
  least : (beforeCut ms).countP Mark.isVisible ≤ codeSigils k text
  exact : (∀ m ∈ fromCut ms, m = .cut) → codeSigils k text = (beforeCut ms).countP Mark.isVisible
  marked : sigil ∈ text → ∃ m ∈ ms, m ≠ .cut

namespace Shows
variable {k : Context} {xs ys : List Char} {ms ns : List Mark}

theorem eq_of_not_mem (h : Shows k xs ms) (hcut : .cut ∉ ms) :
    codeSigils k xs = ms.countP Mark.isVisible := by
  have hfrom : fromCut ms = [] := by simpa [fromCut] using (beforeCut_of_not_mem hcut []).2
  have he := h.exact (by simp [hfrom])
  rwa [beforeCut_eq_self hcut] at he

/-- Marks of a text follow those of another one, if the two join wherever nothing is cut. -/
theorem append (hx : Shows k xs ms) (hn : sigil ∈ ys → ∃ m ∈ ns, m ≠ .cut)
    (hy : .cut ∉ ms → Joins k xs ys ∧ Shows (k.run xs) ys ns) : Shows k (xs ++ ys) (ms ++ ns) := by
  have hmarked : sigil ∈ xs ++ ys → ∃ m ∈ ms ++ ns, m ≠ .cut := by
    intro h
    rcases List.mem_append.mp h with h | h
    · obtain ⟨m, hm, hne⟩ := hx.marked h
      exact ⟨m, List.mem_append_left _ hm, hne⟩
    · obtain ⟨m, hm, hne⟩ := hn h
      exact ⟨m, List.mem_append_right _ hm, hne⟩
  by_cases hcut : .cut ∈ ms
  · obtain ⟨hb, hf⟩ := beforeCut_of_mem hcut ns
    refine ⟨?_, fun hall => ?_, hmarked⟩
    · rw [hb]
      exact hx.least.trans (codeSigils_le_append k xs ys)
    · rw [hf] at hall
      have hsigil : sigil ∉ ys := by
        intro hm
        obtain ⟨m, hm, hne⟩ := hn hm
        exact hne (hall m (List.mem_append_right _ hm))
      rw [hb, codeSigils_append_of_not_mem k xs hsigil]
      exact hx.exact fun m hm => hall m (List.mem_append_left _ hm)
  · obtain ⟨hb, hf⟩ := beforeCut_of_not_mem hcut ns
    obtain ⟨hj, hy⟩ := hy hcut
    refine ⟨?_, fun hall => ?_, hmarked⟩
    · rw [hb, List.countP_append, codeSigils_append hj, hx.eq_of_not_mem hcut]
      exact Nat.add_le_add_left hy.least _
    · rw [hf] at hall
      rw [hb, List.countP_append, codeSigils_append hj, hx.eq_of_not_mem hcut, hy.exact hall]

theorem nil_of_not_mem (k : Context) (h : sigil ∉ xs) : Shows k xs [] :=
  ⟨Nat.zero_le _, fun _ => codeSigils_eq_zero h, fun hm => absurd hm h⟩

theorem append_of_not_mem (hx : Shows k xs ms) (h : sigil ∉ ys) : Shows k (xs ++ ys) ms := by
  have he := codeSigils_append_of_not_mem k xs h
  refine ⟨he ▸ hx.least, fun hall => he ▸ hx.exact hall, fun hm => ?_⟩
  exact hx.marked ((List.mem_append.mp hm).resolve_right h)

theorem of_append (hx : Shows k (xs ++ ys) ms) (h : sigil ∉ ys) : Shows k xs ms := by
  have he := codeSigils_append_of_not_mem k xs h
  exact ⟨he ▸ hx.least, fun hall => he ▸ hx.exact hall, fun hm => hx.marked (List.mem_append_left _ hm)⟩

theorem quiet_append (h : Quiet xs) (hs : sigil ∉ xs) (hy : Shows .start ys ns) :
    Shows .start (xs ++ ys) ns :=
  append (nil_of_not_mem .start hs) hy.marked fun _ => ⟨h.joins ys, by rwa [h.run]⟩

theorem append_cut (hx : Shows k xs ms) : Shows k xs (ms ++ [.cut]) := by
  have hmarked : sigil ∈ xs → ∃ m ∈ ms ++ [Mark.cut], m ≠ .cut := by
    intro h
    obtain ⟨m, hm, hne⟩ := hx.marked h
    exact ⟨m, List.mem_append_left _ hm, hne⟩
  by_cases hcut : .cut ∈ ms
  · obtain ⟨hb, hf⟩ := beforeCut_of_mem hcut [.cut]
    refine ⟨hb ▸ hx.least, fun hall => ?_, hmarked⟩
    rw [hb]
    exact hx.exact fun m hm => hall m (hf ▸ List.mem_append_left _ hm)
  · obtain ⟨hb, -⟩ := beforeCut_of_not_mem hcut [.cut]
    have he := hx.eq_of_not_mem hcut
    have hbefore : beforeCut (ms ++ [.cut]) = ms := by rw [hb]; simp [beforeCut]
    exact ⟨by rw [hbefore, he], fun _ => by rw [hbefore, he], hmarked⟩

end Shows

namespace Outline

theorem mem_marksOf {m m' : Mark} {cs : List Char} (h : m' ∈ marksOf m cs) : m' = m := by
  obtain ⟨-, -, rfl⟩ := List.mem_map.mp h
  rfl

theorem exists_mem_marksOf {cs : List Char} (h : sigil ∈ cs) (m : Mark) : m ∈ marksOf m cs :=
  List.mem_map.mpr ⟨sigil, List.mem_filter.mpr ⟨h, by simp⟩, rfl⟩

theorem cut_mem_step {cs : List Char} {rest : Outline} {w : Keyword} :
    .cut ∈ (text cs rest).marks w ↔ .cut ∈ rest.marks w := by
  rw [marks, List.mem_append, or_iff_right fun h => by simpa using mem_marksOf h]

theorem cut_mem_leftover {rest : Outline} {w : Keyword} :
    .cut ∈ (leftover rest).marks w ↔ .cut ∈ rest.marks w := by
  simp [marks]

theorem cut_mem_shorthand {w : Keyword} {gap : Option (List Char)} {s : Shorthand} {params body rest : Outline} :
    .cut ∈ (shorthand gap s params body rest).marks w ↔ .cut ∈ params.marks w ∨ .cut ∈ body.marks w ∨
      .cut ∈ cutMark s (body.render w) ∨ .cut ∈ rest.marks w := by
  have hname : Mark.cut ∉ marksOf .inName (s.name.getD []) := fun h => by simpa using mem_marksOf h
  simp [marks, hname]

theorem shows_text {k k' : Context} {xs ys : List Char} {ms : List Mark}
    (he : codeSigils k (xs ++ ys) = codeSigils k' ys) (hy : Shows k' ys ms) :
    Shows k (xs ++ ys) (marksOf .hidden xs ++ ms) := by
  have hcut : Mark.cut ∉ marksOf .hidden xs := fun h => by simpa using mem_marksOf h
  obtain ⟨hb, hf⟩ := beforeCut_of_not_mem hcut ms
  have hzero : (marksOf .hidden xs).countP Mark.isVisible = 0 :=
    List.countP_eq_zero.mpr fun m hm => by simp [mem_marksOf hm, Mark.isVisible]
  refine ⟨?_, fun hall => ?_, fun hm => ?_⟩
  · rw [hb, List.countP_append, hzero, he, Nat.zero_add]
    exact hy.least
  · rw [hb, List.countP_append, hzero, he, Nat.zero_add]
    exact hy.exact (hf ▸ hall)
  · rcases List.mem_append.mp hm with hm | hm
    · exact ⟨.hidden, List.mem_append_left _ (exists_mem_marksOf hm _), by decide⟩
    · obtain ⟨m, hm, hne⟩ := hy.marked hm
      exact ⟨m, List.mem_append_right _ hm, hne⟩

theorem marks_eq_nil {o : Outline} (h : sigil ∉ o.source) (w : Keyword) : o.marks w = [] := by
  induction o with
  | done => rfl
  | text cs rest ih =>
    simp only [source, List.mem_append, not_or] at h
    have hnone : marksOf .hidden cs = [] := by
      simp only [marksOf, List.map_eq_nil_iff, List.filter_eq_nil_iff, decide_eq_true_eq]
      exact fun c hc => ne_of_mem_of_not_mem hc h.1
    rw [marks, hnone, ih h.2]
    rfl
  | leftover rest => exact absurd List.mem_cons_self h
  | shorthand gap s params body rest => simp [source] at h

theorem shows_standardFront {s : Shorthand} (hname : ∀ name ∈ s.name, Quiet name) (w : Keyword)
    (isAsync : Bool) :
    Shows .start (s.standardFront w isAsync) (marksOf .inName (s.name.getD [])) := by
  have hcut : Mark.cut ∉ marksOf .inName (s.name.getD []) := fun h => by simpa using mem_marksOf h
  have hvisible : (marksOf .inName (s.name.getD [])).countP Mark.isVisible =
      (s.name.getD []).count sigil := by
    rw [marksOf, List.countP_map, List.count_eq_countP, List.countP_filter]
    exact List.countP_congr fun c _ => by simp [Mark.isVisible]
  have he : codeSigils .start (s.standardFront w isAsync) =
      (beforeCut (marksOf .inName (s.name.getD []))).countP Mark.isVisible := by
    rw [beforeCut_eq_self hcut, hvisible, codeSigils_of_quiet (Shorthand.standardFront_quiet hname w isAsync),
      Shorthand.count_standardFront Shorthand.sigil_not_mem_standardChars]
  refine ⟨he.ge, fun _ => he, fun hm => ?_⟩
  have hpos := List.count_pos_iff.mpr hm
  rw [Shorthand.count_standardFront Shorthand.sigil_not_mem_standardChars] at hpos
  exact ⟨.inName, exists_mem_marksOf (List.count_pos_iff.mp hpos) _, by decide⟩

/-- The clean-up of a body takes no sigil away; where it cuts, this is marked behind the body. -/
theorem shows_standardBody (s : Shorthand) {body : List Char} {ms : List Mark}
    (h : Shows .start body ms) : Shows .start (s.standardBody body) (ms ++ cutMark s body) := by
  have hbody : Shows .start (s.standardBody body) ms := by
    obtain ⟨idle, hcs, hidle⟩ := s.standardBody_append body
    rw [← hcs] at h
    exact h.of_append fun hm => absurd (hidle sigil hm) (by decide)
  unfold cutMark
  split
  · exact hbody.append_cut
  · rwa [List.append_nil]

/-- The marks of a shorthand and of what follows. Either the body ends in code, or nothing but text
without a sigil follows. -/
theorem shows_standard {s : Shorthand} (hname : ∀ name ∈ s.name, Quiet name) (w : Keyword)
    (isAsync : Bool) {params body after : List Char} {ps bs rs : List Mark}
    (hparams : Shows .start params ps) (hparamsRun : .cut ∉ ps → Context.start.run params = .start)
    (hbody : Shows .start body bs)
    (hafter : ((.cut ∉ bs → Context.start.run body = .start) ∧ Shows .start after rs) ∨
      (sigil ∉ after ∧ rs = [])) :
    Shows .start (s.standard w isAsync params body ++ after)
      (marksOf .inName (s.name.getD []) ++ (ps ++ (bs ++ (cutMark s body ++ rs)))) := by
  have hclose := s.sigil_not_mem_standardClose
  have hend : Shows .start (s.standardBody body ++ (s.standardClose ++ after))
      (bs ++ (cutMark s body ++ rs)) := by
    rw [← List.append_assoc bs]
    rcases hafter with ⟨hbodyRun, hshows⟩ | ⟨hnone, rfl⟩
    · have hrest := hshows.quiet_append (Shorthand.standardClose_quiet s) hclose
      refine (shows_standardBody s hbody).append hrest.marked fun hcut => ?_
      simp only [List.mem_append, not_or] at hcut
      have hrun := run_standardBody hcut.2 (hbodyRun hcut.1)
      exact ⟨joins_of_isCode (by rw [hrun]; rfl) (s.apart_standardClose _ _), by rwa [hrun]⟩
    · rw [List.append_nil]
      refine (shows_standardBody s hbody).append_of_not_mem fun hm => ?_
      exact (List.mem_append.mp hm).elim hclose hnone
  have hmiddle := hend.quiet_append s.standardMiddle_quiet s.sigil_not_mem_standardMiddle
  have hinside := hparams.append hmiddle.marked fun hcut =>
    ⟨joins_of_isCode (by rw [hparamsRun hcut]; rfl) (s.apart_standardMiddle _ _),
      by rwa [hparamsRun hcut]⟩
  have hfront := Shorthand.standardFront_quiet hname w isAsync
  have hall := (shows_standardFront hname w isAsync).append hinside.marked fun _ =>
    ⟨hfront.joins _, by rwa [hfront.run]⟩
  rw [Shorthand.standard_eq]
  simpa only [List.append_assoc] using hall

theorem shows_sigil : Shows .start [sigil] [.leftover] := by
  have hone : codeSigils .start [sigil] = 1 := by decide
  exact ⟨hone.ge, fun _ => hone, fun _ => ⟨.leftover, by simp, by decide⟩⟩

/-- The scan of a rendering meets the sigils in code that the outline marks. -/
theorem shows_render {k : Context} (hk : k.Settled) (joined : Bool) (cs : List Char) (w : Keyword) :
    Shows k ((read k joined cs).render w) ((read k joined cs).marks w) := by
  induction k, joined, cs using read_induction with
  | nil k =>
    rw [read_nil]
    exact Shows.nil_of_not_mem k (by simp [render])
  | opening k joined cs o hk' ho ihParams ihBody ihRest =>
    obtain rfl := hk hk'
    obtain ⟨hspans, -⟩ := Opening.read?_spans ho
    have hparamsRun (hcut : .cut ∉ (read .start false o.shorthand.params).marks w) :
        Context.start.run ((read .start false o.shorthand.params).render w) = .start :=
      Context.run_eq_start (run_render hk false _ w hcut (by rw [hspans.params]; rfl))
    rw [read_of_opening ho]
    refine shows_standard hspans.name w o.gap.isSome (ihParams hk) hparamsRun (ihBody hk) ?_
    rcases hspans.body_ends with hclosed | ⟨hblank, -⟩
    · exact Or.inl ⟨fun hcut => Context.run_eq_start
        (run_render hk false _ w hcut (by rw [hclosed]; rfl)), ihRest hk⟩
    · have hsource : sigil ∉ (read .start o.joins o.rest).source := by
        rw [source_read]
        exact fun hm => absurd (hblank sigil hm) (by decide)
      have hnil := marks_eq_nil hsource w
      refine Or.inr ⟨fun hm => ?_, hnil⟩
      obtain ⟨m, hm, -⟩ := (ihRest hk).marked hm
      simp [hnil] at hm
  | leftover k joined cs hk' hread ih =>
    obtain rfl := hk hk'
    have hq : Quiet [sigil] := Quiet.cons isQuiet_sigil quiet_nil
    rw [hread]
    exact shows_sigil.append (ih hk).marked fun _ => ⟨hq.joins _, by rw [hq.run]; exact ih hk⟩
  | step k joined c cs hs hread ih =>
    rw [hread]
    refine shows_text ?_ (ih (Context.step_settled hk c _))
    rw [codeSigils, trace_step_render k c cs List.prefix_rfl, List.countP_cons, isCodeChar_firstStep, if_neg hs]
    rfl

theorem length_leftovers (o : Outline) (w : Keyword) (place : Nat) :
    (o.leftovers place).length = (o.marks w).count .leftover := by
  have hmarks {m : Mark} (hm : m ≠ .leftover) (cs : List Char) :
      (marksOf m cs).count .leftover = 0 :=
    List.count_eq_zero.mpr fun h => hm (mem_marksOf h).symm
  induction o generalizing place with
  | done => rfl
  | text cs rest ih =>
    rw [leftovers, marks, List.count_append, hmarks (by decide), ih, Nat.zero_add]
  | leftover rest ih => rw [leftovers, marks, List.length_cons, List.count_cons_self, ih]
  | shorthand gap s params body rest ihParams ihBody ihRest =>
    have hcut : (cutMark s (body.render w)).count .leftover = 0 := by
      unfold cutMark
      split <;> decide
    simp only [leftovers, marks, List.length_append, List.count_append, ihParams, ihBody, ihRest,
      hmarks (by decide : Mark.inName ≠ .leftover), hcut]
    omega

/-- The marks of a source text and its expansion, be there a sigil in it or not. -/
theorem shows_expand (w : Keyword) (cs : List Char) :
    Shows .start (expand w cs) ((ofText cs).marks w) := by
  unfold expand
  split
  · exact shows_render Context.start_settled false cs w
  · rename_i hnone
    rw [marks_eq_nil (by rwa [source_ofText]) w]
    exact Shows.nil_of_not_mem .start hnone

end Outline

theorem length_leftoverPlaces (source : String) (w : Keyword) :
    (leftoverPlaces source).length = ((Outline.ofText source.toList).marks w).count .leftover := by
  unfold leftoverPlaces
  split
  · exact Outline.length_leftovers _ w 0
  · rename_i hnone
    rw [Outline.marks_eq_nil (by rwa [Outline.source_ofText]) w]
    rfl

theorem length_leftoverSites_expandText (w : Keyword) (source : String) :
    (leftoverSites (expandText w source).toList).length = codeSigils .start (expand w source.toList) := by
  rw [length_leftoverSites, expandText, String.toList_ofList]

/-- Only leftover sigils behind a cut can escape the sites of the result. -/
theorem length_leftoverPlaces_le (w : Keyword) (source : String) :
    (leftoverPlaces source).length ≤ (leftoverSites (expandText w source).toList).length +
      (fromCut ((Outline.ofText source.toList).marks w)).count .leftover := by
  rw [length_leftoverPlaces source w, length_leftoverSites_expandText]
  have hshows := Outline.shows_expand w source.toList
  generalize (Outline.ofText source.toList).marks w = ms at hshows ⊢
  have hsplit : ms.count .leftover = (beforeCut ms).count .leftover + (fromCut ms).count .leftover := by
    rw [← List.count_append, beforeCut, fromCut, List.takeWhile_append_dropWhile]
  have hvisible : (beforeCut ms).count .leftover ≤ (beforeCut ms).countP Mark.isVisible := by
    rw [List.count_eq_countP]
    exact List.countP_mono_left fun m _ hm => by simp_all [Mark.isVisible]
  have hleast := hshows.least
  omega

/-- A leftover sigil behind a cut escapes: the clean-up takes the line break after `// c` away, so
that the comment swallows the sigil. -/
theorem leftoverPlaces_escape : leftoverPlaces "ƒ f [a // c\n;) ƒ" = [15] ∧
    leftoverSites (expandText .var "ƒ f [a // c\n;) ƒ").toList = [] := by
  decide +kernel

/-- Unless a sigil follows a cut, the result has sites just where a sigil is left over or stands in
the name of a shorthand. -/
theorem leftoverSites_eq_nil_iff (w : Keyword) (source : String)
    (h : ∀ m ∈ fromCut ((Outline.ofText source.toList).marks w), m = .cut) :
    leftoverSites (expandText w source).toList = [] ↔
      leftoverPlaces source = [] ∧ .inName ∉ (Outline.ofText source.toList).marks w := by
  rw [← List.length_eq_zero_iff, ← List.length_eq_zero_iff, length_leftoverSites_expandText,
    length_leftoverPlaces source w, (Outline.shows_expand w source.toList).exact h]
  generalize (Outline.ofText source.toList).marks w = ms at h ⊢
  have hmem (m : Mark) (hm : m ≠ .cut) : m ∈ ms ↔ m ∈ beforeCut ms := by
    have hms : beforeCut ms ++ fromCut ms = ms := List.takeWhile_append_dropWhile
    conv_lhs => rw [← hms, List.mem_append]
    exact or_iff_left fun hf => hm (h m hf)
  rw [List.countP_eq_zero, List.count_eq_zero, hmem .leftover (by decide), hmem .inName (by decide)]
  constructor
  · intro hall
    exact ⟨fun hm => hall _ hm rfl, fun hm => hall _ hm rfl⟩
  · rintro ⟨hleftover, hname⟩ m hm hvisible
    cases m with
    | leftover => exact hleftover hm
    | inName => exact hname hm
    | hidden => simp [Mark.isVisible] at hvisible
    | cut => simp [Mark.isVisible] at hvisible

theorem leftoverSites_eq_nil_iff_of_nested :
    leftoverSites (expandText .const "ƒ f(a) ƒ(b) 'ƒ'").toList = [] ↔
      leftoverPlaces "ƒ f(a) ƒ(b) 'ƒ'" = [] ∧
        .inName ∉ (Outline.ofText "ƒ f(a) ƒ(b) 'ƒ'".toList).marks .const :=
  leftoverSites_eq_nil_iff .const "ƒ f(a) ƒ(b) 'ƒ'" (by decide +kernel)

/-- A sigil in a name stays in the result although no sigil is left over. -/
theorem leftoverSites_of_inName : leftoverPlaces "ƒ ƒ(a) b" = [] ∧
    leftoverSites (expandText .var "ƒ ƒ(a) b").toList = [⟨4, 1, 5⟩] := by
  decide +kernel

end Florin
