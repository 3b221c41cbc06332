import Florin.Proofs.FixedPoint
import Florin.Proofs.Scanning
import Florin.Proofs.Sites

/-! # Images of the sigils that are left

A sigil that starts no shorthand stands in the source, and its image stands in the expansion. Both stand behind
the same stretch of text, which is copied; before that stretch shorthands are replaced. So the image may stand
elsewhere on its line, and on an earlier line where a line break is lost on the way, but never on a later one.
-/
namespace Florin
open Text Lexical

/-- The text before a sigil: what is replaced, what is put in its place, and what is copied behind it. -/
structure Image where
  replaced : List Char
  replacement : List Char
  copied : List Char
  deriving DecidableEq, Repr

namespace Image

def source (i : Image) : List Char := i.replaced ++ i.copied

def output (i : Image) : List Char := i.replacement ++ i.copied

def start : Image := ⟨[], [], []⟩

/-- Goes on behind text that stays as it is. -/
def copy (i : Image) (cs : List Char) : Image := ⟨i.replaced, i.replacement, i.copied ++ cs⟩

/-- Goes on behind text that is replaced. -/
def replace (i : Image) (xs ys : List Char) : Image := ⟨i.source ++ xs, i.output ++ ys, []⟩

section Texts
variable (i : Image) (cs xs ys : List Char)

@[simp] theorem source_copy : (i.copy cs).source = i.source ++ cs := (List.append_assoc _ _ _).symm

@[simp] theorem output_copy : (i.copy cs).output = i.output ++ cs := (List.append_assoc _ _ _).symm

@[simp] theorem source_replace : (i.replace xs ys).source = i.source ++ xs := List.append_nil _

@[simp] theorem output_replace : (i.replace xs ys).output = i.output ++ ys := List.append_nil _

end Texts

/-- Nothing is put in the place of nothing, and no more line breaks are put in than are taken. -/
structure Aligned (i : Image) : Prop where
  starts : i.replaced = [] → i.replacement = []
  lines : i.replacement.count '\n' ≤ i.replaced.count '\n'

namespace Aligned
variable {i : Image} {xs ys : List Char}

theorem start : Image.start.Aligned := ⟨fun _ => rfl, Nat.le_refl _⟩

theorem copy (h : i.Aligned) (cs : List Char) : (i.copy cs).Aligned := ⟨h.starts, h.lines⟩

theorem replace (h : i.Aligned) (hxs : xs ≠ []) (hlines : ys.count '\n' ≤ xs.count '\n') :
    (i.replace xs ys).Aligned := by
  refine ⟨fun hnone => absurd (List.append_eq_nil_iff.mp hnone).2 hxs, ?_⟩
  have hbefore := h.lines
  simp only [Image.replace, Image.source, Image.output, List.count_append]
  omega

theorem line_le (h : i.Aligned) : (Site.atEnd i.output).line ≤ (Site.atEnd i.source).line := by
  have hlines := h.lines
  simp only [Site.atEnd, Image.source, Image.output, List.count_append]
  omega

end Aligned

/-- No line break is lost, and the line of the sigil starts in the text that is copied, or else nothing is
replaced. -/
def Keeps (i : Image) : Prop :=
  i.replacement.count '\n' = i.replaced.count '\n' ∧ (i.replaced = [] ∨ '\n' ∈ i.copied)

instance (i : Image) : Decidable i.Keeps :=
  inferInstanceAs (Decidable (i.replacement.count '\n' = i.replaced.count '\n' ∧ (i.replaced = [] ∨ '\n' ∈ i.copied)))

end Image

theorem lastLine_append {cs : List Char} (h : '\n' ∈ cs) (front : List Char) :
    lastLine (front ++ cs) = lastLine cs := by
  induction cs using List.reverseRecOn with
  | nil => simp at h
  | append_singleton cs c ih =>
    rw [← List.append_assoc, lastLine_concat, lastLine_concat]
    split
    · rfl
    · rename_i hc
      have hcs : '\n' ∈ cs := (List.mem_append.mp h).resolve_right (by simpa using Ne.symm hc)
      rw [ih hcs]

/-- Then the sigil keeps its line and its column. -/
theorem Image.Aligned.atEnd_of_keeps {i : Image} (h : i.Aligned) (hk : i.Keeps) :
    (Site.atEnd i.output).line = (Site.atEnd i.source).line ∧
      (Site.atEnd i.output).column = (Site.atEnd i.source).column := by
  obtain ⟨hlines, hnone | hnewline⟩ := hk
  · have hsame : i.output = i.source := by rw [output, source, hnone, h.starts hnone]
    rw [hsame]
    exact ⟨rfl, rfl⟩
  · simp only [Site.atEnd, output, source, List.count_append, lastLine_append hnewline, hlines]
    exact ⟨trivial, trivial⟩

/-! ## The places of sigils in joined texts -/

section Places
variable {ys cs : List Char}

theorem sigilPlaces_append (place : Nat) (before after : List Step) :
    sigilPlaces place (before ++ after) =
      sigilPlaces place before ++ sigilPlaces (place + (spell before).length) after := by
  induction before generalizing place with
  | nil => rfl
  | cons s before ih =>
    rw [List.cons_append, sigilPlaces, sigilPlaces, ih, spell_cons, List.length_append, ← Nat.add_assoc]
    split <;> rfl

theorem sigilPlaces_eq_nil (h : sigil ∉ cs) (k : Context) (place : Nat) : sigilPlaces place (trace k cs) = [] := by
  have hnone := List.countP_eq_zero.mp (codeSigils_eq_zero (k := k) h)
  refine List.eq_nil_iff_forall_not_mem.mpr fun n hn => ?_
  obtain ⟨m, s, -, ⟨front, back, hcut, -⟩, hsigil⟩ := mem_sigilPlaces.mp hn
  exact hnone s (hcut ▸ List.mem_append_right front List.mem_cons_self) hsigil

/-- Text without a sigil behind a text adds no place and takes none away, whatever step lies over both. -/
theorem sigilPlaces_append_of_not_mem (h : sigil ∉ ys) (k : Context) (xs : List Char) (place : Nat) :
    sigilPlaces place (trace k (xs ++ ys)) = sigilPlaces place (trace k xs) := by
  induction k, xs using step_induction generalizing place with
  | nil k =>
    rw [List.nil_append, sigilPlaces_eq_nil h]
    rfl
  | cons k c xs ih =>
    rw [List.cons_append, trace_cons, trace_cons, sigilPlaces, sigilPlaces, isCodeChar_firstStep,
      isCodeChar_firstStep]
    by_cases hxs : xs = []
    · have hbehind : sigil ∉ behindStep k c ys := fun hm => h ((behindStep_suffix k c ys).subset hm)
      subst hxs
      rw [List.nil_append, sigilPlaces_eq_nil hbehind, sigilPlaces_eq_nil (by simp [behindStep])]
    · obtain ⟨hstep, hbehind⟩ := firstStep_append_of_ne_nil k c hxs ys
      rw [hstep, hbehind, ih]

end Places

namespace Shorthand

theorem sigilPlaces_standardBody (s : Shorthand) (body : List Char) (place : Nat) :
    sigilPlaces place (trace .start (s.standardBody body)) = sigilPlaces place (trace .start body) := by
  obtain ⟨idle, hbody, hidle⟩ := s.standardBody_append body
  conv_rhs => rw [← hbody]
  exact (sigilPlaces_append_of_not_mem (fun hm => absurd (hidle sigil hm) (by decide)) _ _ place).symm

/-- The places of the sigils from the body on, if the body ends in code or no sigil follows. -/
theorem sigilPlaces_standardBody_append (s : Shorthand) {body ys : List Char}
    (hb : Context.start.run (s.standardBody body) = .start ∨ sigil ∉ ys) (place : Nat) :
    sigilPlaces place (trace .start (s.standardBody body ++ (s.standardClose ++ ys))) =
      sigilPlaces place (trace .start body) ++
        sigilPlaces (place + (s.standardBody body ++ s.standardClose).length) (trace .start ys) := by
  have hclose := s.sigil_not_mem_standardClose
  rcases hb with hb | hys
  · rw [trace_standardBody_append hb]
    simp only [sigilPlaces_append, sigilPlaces_standardBody, sigilPlaces_eq_nil hclose, List.nil_append, spell_trace,
      List.length_append, Nat.add_assoc]
  · have hbehind : sigil ∉ s.standardClose ++ ys := fun hm => (List.mem_append.mp hm).elim hclose hys
    rw [sigilPlaces_append_of_not_mem hbehind, sigilPlaces_standardBody, sigilPlaces_eq_nil hys, List.append_nil]

/-- The places of the sigils in a standard form and behind it, where no sigil is in the name. Each part ends in
code, or no sigil follows. -/
theorem sigilPlaces_standard {s : Shorthand} (hname : ∀ name ∈ s.name, Quiet name)
    (hsigil : sigil ∉ s.name.getD []) (w : Keyword) (isAsync : Bool) {params body ys : List Char}
    (hp : Context.start.run params = .start ∨ sigil ∉ body ∧ sigil ∉ ys)
    (hb : Context.start.run (s.standardBody body) = .start ∨ sigil ∉ ys) (place : Nat) :
    sigilPlaces place (trace .start (s.standard w isAsync params body ++ ys)) =
      sigilPlaces (place + (s.standardFront w isAsync).length) (trace .start params) ++
        (sigilPlaces (place + (s.standardFront w isAsync ++ (params ++ s.standardMiddle)).length) (trace .start body) ++
          sigilPlaces (place + (s.standard w isAsync params body).length) (trace .start ys)) := by
  have hfront : sigil ∉ s.standardFront w isAsync := by
    rw [← List.count_eq_zero, count_standardFront sigil_not_mem_standardChars]
    exact List.count_eq_zero.mpr hsigil
  have hmiddle := s.sigil_not_mem_standardMiddle
  have hquiet := standardFront_quiet hname w isAsync
  rcases hp with hp | ⟨hbody, hys⟩
  · rw [trace_standard_append hname w isAsync hp]
    simp only [sigilPlaces_append, sigilPlaces_standardBody_append s hb, sigilPlaces_eq_nil hfront,
      sigilPlaces_eq_nil hmiddle, List.nil_append, spell_trace, standard_eq, List.length_append, Nat.add_assoc]
  · have hstandardBody : sigil ∉ s.standardBody body := by
      obtain ⟨idle, happ, -⟩ := s.standardBody_append body
      exact fun hm => hbody (happ ▸ List.mem_append_left idle hm)
    have hbehind : sigil ∉ s.standardMiddle ++ (s.standardBody body ++ (s.standardClose ++ ys)) := by
      simp [hmiddle, hstandardBody, s.sigil_not_mem_standardClose, hys]
    rw [sigilPlaces_eq_nil hbody, sigilPlaces_eq_nil hys, List.append_nil, List.append_nil]
    simp only [standard_eq, List.append_assoc]
    rw [hquiet.joins, hquiet.run, sigilPlaces_append, sigilPlaces_eq_nil hfront, List.nil_append, spell_trace,
      sigilPlaces_append_of_not_mem hbehind]

theorem prefix_standardBody (s : Shorthand) {before front body : List Char}
    (h : before ++ [sigil] <+: front ++ body) : before ++ [sigil] <+: front ++ s.standardBody body := by
  obtain ⟨idle, hbody, hidle⟩ := s.standardBody_append body
  obtain ⟨after, hafter⟩ := h
  rw [← hbody, ← List.append_assoc, List.append_assoc, List.singleton_append] at hafter
  obtain ⟨back, hback, -⟩ := exists_of_append_idle hafter.symm hidle (by decide)
  exact ⟨back, by rw [hback, List.append_assoc, List.singleton_append]⟩

end Shorthand

/-! ## Line breaks in a standard form -/

section Newlines
variable {joined : Bool} {cs : List Char} {o : Opening}

theorem Shorthand.newlines_standardBody_le (s : Shorthand) (body : List Char) :
    (s.standardBody body).count '\n' ≤ body.count '\n' := by
  obtain ⟨idle, hbody, -⟩ := s.standardBody_append body
  conv_rhs => rw [← hbody, List.count_append]
  exact Nat.le_add_right _ _

theorem Shorthand.newlines_standardMiddle (s : Shorthand) : s.standardMiddle.count '\n' = 0 :=
  List.count_eq_zero.mpr fun h => absurd (s.standardMiddle_subset h) (by decide)

theorem Opening.newlines_standardFront (ho : Opening.read? joined cs = some o) (w : Keyword) (isAsync : Bool) :
    (o.shorthand.standardFront w isAsync).count '\n' = 0 := by
  rw [Shorthand.count_standardFront (by decide), List.count_eq_zero]
  intro h
  cases hname : o.shorthand.name with
  | none => simp [hname] at h
  | some name =>
    rw [hname] at h
    exact absurd (Opening.isContinue_name ho name hname '\n' h) (by decide)

theorem Opening.newlines_standard_le (ho : Opening.read? joined cs = some o) (w : Keyword) (isAsync : Bool)
    {params body : List Char} (hp : params.count '\n' ≤ o.shorthand.params.count '\n')
    (hb : body.count '\n' ≤ o.shorthand.body.text.count '\n') :
    (o.shorthand.standard w isAsync params body).count '\n' ≤ o.shorthand.span.count '\n' := by
  have hfront := newlines_standardFront ho w isAsync
  have hmiddle := o.shorthand.newlines_standardMiddle
  have hbody := o.shorthand.newlines_standardBody_le body
  have hclose : o.shorthand.standardClose.count '\n' = 0 :=
    List.count_eq_zero.mpr fun h => absurd (o.shorthand.standardClose_subset h) (by decide)
  simp only [Shorthand.standard_eq, Shorthand.span, List.count_append]
  omega

end Newlines

/-! ## Images in an outline -/

namespace Outline

/-- The images of the sigils that are left, behind the text before an outline. -/
def images (w : Keyword) (i : Image) : Outline → List Image
  | .done => []
  | .text cs rest => rest.images w (i.copy cs)
  | .leftover rest => i :: rest.images w (i.copy [sigil])
  | .shorthand gap s params body rest =>
    params.images w (i.replace (asyncPart gap ++ sigil :: s.lead) (s.standardFront w gap.isSome)) ++
      (body.images w (i.replace (asyncPart gap ++ sigil :: (s.lead ++ s.params ++ s.middle))
          (s.standardFront w gap.isSome ++ (params.render w ++ s.standardMiddle))) ++
        rest.images w (i.replace (asyncPart gap ++ sigil :: s.span)
          (s.standard w gap.isSome (params.render w) (body.render w))))

/-- There is one for each sigil that the scan leaves in place. -/
theorem map_images (o : Outline) (w : Keyword) (i : Image) :
    (o.images w i).map (fun j => ⟨j.source.length, .leftover⟩) =
      (o.attempts i.source.length).filter fun a => a.outcome = .leftover := by
  induction o generalizing i with
  | done => rfl
  | text cs rest ih => rw [images, attempts, ih, Image.source_copy, List.length_append]
  | leftover rest ih =>
    rw [images, attempts, List.map_cons, ih, Image.source_copy, List.length_append]
    rfl
  | shorthand gap s params body rest ihParams ihBody ihRest =>
    rw [images, attempts]
    simp [ihParams, ihBody, ihRest, Nat.add_assoc, Nat.add_comm, Nat.add_left_comm]

variable {k : Context} {joined : Bool} {cs : List Char} {w : Keyword} {i j : Image}

theorem source_of_mem_images (h : j ∈ (read k joined cs).images w i) : j.source ++ [sigil] <+: i.source ++ cs := by
  induction k, joined, cs using read_induction generalizing i with
  | nil => simp [read_nil, images] at h
  | opening k joined cs o hcode ho ihParams ihBody ihRest =>
    rw [read_of_some hcode ho, images, List.mem_append, List.mem_append] at h
    rw [Opening.read?_append ho]
    rcases h with h | h | h
    · exact (ihParams h).trans (by simp [Shorthand.span])
    · exact (ihBody h).trans (by simp [Shorthand.span])
    · exact (ihRest h).trans (by simp)
  | leftover k joined cs hcode hread ih =>
    rw [hread, images] at h
    rcases List.mem_cons.mp h with rfl | h
    · simp
    · simpa using ih h
  | step k joined c cs hs hread ih =>
    rw [hread, images] at h
    have hprefix := ih h
    rwa [Image.source_copy, List.append_assoc, firstStep_append] at hprefix

theorem output_of_mem_images (h : j ∈ (read k joined cs).images w i) :
    j.output ++ [sigil] <+: i.output ++ (read k joined cs).render w := by
  induction k, joined, cs using read_induction generalizing i with
  | nil => simp [read_nil, images] at h
  | opening k joined cs o hcode ho ihParams ihBody ihRest =>
    rw [read_of_some hcode ho, images, List.mem_append, List.mem_append] at h
    rw [read_of_some hcode ho, render]
    rcases h with h | h | h
    · exact (ihParams h).trans (by simp [Shorthand.standard_eq])
    · exact (o.shorthand.prefix_standardBody (ihBody h)).trans (by simp [Shorthand.standard_eq])
    · exact (ihRest h).trans (by simp)
  | leftover k joined cs hcode hread ih =>
    rw [hread, images] at h
    rw [hread, render]
    rcases List.mem_cons.mp h with rfl | h
    · simp
    · simpa using ih h
  | step k joined c cs hs hread ih =>
    rw [hread, images] at h
    rw [hread, render]
    simpa using ih h

theorem newlines_render (k : Context) (joined : Bool) (cs : List Char) (w : Keyword) :
    ((read k joined cs).render w).count '\n' ≤ cs.count '\n' := by
  induction k, joined, cs using read_induction with
  | nil => simp [read_nil, render]
  | opening k joined cs o hcode ho ihParams ihBody ihRest =>
    have hstandard := Opening.newlines_standard_le ho w o.gap.isSome ihParams ihBody
    rw [read_of_some hcode ho, render, List.count_append, Opening.read?_append ho]
    simp only [List.count_append, List.count_cons]
    omega
  | leftover k joined cs hcode hread ih =>
    rw [hread, render, List.count_cons, List.count_cons]
    omega
  | step k joined c cs hs hread ih =>
    rw [hread, render, ← firstStep_append k c cs, List.count_append, List.count_append]
    omega

/-- The images are those of an expansion that keeps step with its source. -/
theorem aligned_of_mem_images (hi : i.Aligned) (h : j ∈ (read k joined cs).images w i) : j.Aligned := by
  induction k, joined, cs using read_induction generalizing i with
  | nil => simp [read_nil, images] at h
  | opening k joined cs o hcode ho ihParams ihBody ihRest =>
    have hP := newlines_render .start false o.shorthand.params w
    have hB := newlines_render .start false o.shorthand.body.text w
    rw [read_of_some hcode ho, images, List.mem_append, List.mem_append] at h
    rcases h with h | h | h
    · refine ihParams (hi.replace (by simp) ?_) h
      rw [Opening.newlines_standardFront ho]
      exact Nat.zero_le _
    · refine ihBody (hi.replace (by simp) ?_) h
      have hfront := Opening.newlines_standardFront ho w o.gap.isSome
      have hmiddle := o.shorthand.newlines_standardMiddle
      simp only [List.count_append, List.count_cons]
      omega
    · refine ihRest (hi.replace (by simp) ?_) h
      have hstandard := Opening.newlines_standard_le ho w o.gap.isSome hP hB
      simp only [List.count_append, List.count_cons]
      omega
  | leftover k joined cs hcode hread ih =>
    rw [hread, images] at h
    rcases List.mem_cons.mp h with rfl | h
    · exact hi
    · exact ih (hi.copy [sigil]) h
  | step k joined c cs hs hread ih =>
    rw [hread, images] at h
    exact ih (hi.copy _) h

theorem sigil_not_mem_render (hk : k.Settled) (h : ∀ m ∈ (read k joined cs).marks w, m = .cut) :
    sigil ∉ (read k joined cs).render w := by
  intro hm
  obtain ⟨m, hmark, hne⟩ := (shows_render hk joined cs w).marked hm
  exact hne (h m hmark)

/-- Each part of a standard form that some sigil follows ends in code, if no sigil follows a cut. -/
theorem run_parts {o : Opening} (ho : Opening.read? joined cs = some o)
    (hcut : ∀ m ∈ fromCut ((read .start false o.shorthand.params).marks w ++
      ((read .start false o.shorthand.body.text).marks w ++
        (cutMark o.shorthand ((read .start false o.shorthand.body.text).render w) ++
          (read .start o.joins o.rest).marks w))), m = .cut) :
    (Context.start.run ((read .start false o.shorthand.params).render w) = .start ∨
      sigil ∉ (read .start false o.shorthand.body.text).render w ∧ sigil ∉ (read .start o.joins o.rest).render w) ∧
    (Context.start.run (o.shorthand.standardBody ((read .start false o.shorthand.body.text).render w)) = .start ∨
      sigil ∉ (read .start o.joins o.rest).render w) := by
  have hspans := (Opening.read?_spans ho).1
  have hbehind := fromCut_of_append hcut
  have hrest := fromCut_of_append hbehind
  constructor
  · rcases (fromCut_append hcut).2 with ⟨hwhole, -⟩ | hall
    · exact .inl (Context.run_eq_start (run_render Context.start_settled false _ w hwhole (by rw [hspans.params]; rfl)))
    · exact .inr ⟨sigil_not_mem_render Context.start_settled fun m hm => hall m (List.mem_append_left _ hm),
        sigil_not_mem_render Context.start_settled fun m hm =>
          hall m (List.mem_append_right _ (List.mem_append_right _ hm))⟩
  · rcases hspans.body_ends with hclosed | ⟨hblank, -⟩
    · rcases (fromCut_append hbehind).2 with ⟨hwhole, -⟩ | hall
      · rcases (fromCut_append hrest).2 with ⟨hkept, -⟩ | hall
        · exact .inl (run_standardBody hkept (Context.run_eq_start
            (run_render Context.start_settled false _ w hwhole (by rw [hclosed]; rfl))))
        · exact .inr (sigil_not_mem_render Context.start_settled hall)
      · exact .inr (sigil_not_mem_render Context.start_settled fun m hm => hall m (List.mem_append_right _ hm))
    · have hsource : sigil ∉ (read .start o.joins o.rest).source := by
        rw [source_read]
        exact fun hm => absurd (hblank sigil hm) (by decide)
      exact .inr (sigil_not_mem_render Context.start_settled (by simp [marks_eq_nil hsource]))

/-- Where no sigil follows a cut and none is in a name, the sigils in code of an expansion are those of its
images. -/
theorem sigilPlaces_render (hk : k.Settled) (joined : Bool) (cs : List Char) (w : Keyword)
    (hcut : ∀ m ∈ fromCut ((read k joined cs).marks w), m = .cut) (hname : .inName ∉ (read k joined cs).marks w)
    (i : Image) : sigilPlaces i.output.length (trace k ((read k joined cs).render w)) =
      ((read k joined cs).images w i).map fun j => j.output.length := by
  induction k, joined, cs using read_induction generalizing i with
  | nil => rw [read_nil, render]; rfl
  | opening k joined cs o hcode ho ihParams ihBody ihRest =>
    obtain rfl := hk hcode
    rw [read_of_opening ho, marks] at hcut
    rw [read_of_opening ho] at hname ⊢
    simp only [marks, List.mem_append, not_or] at hname
    obtain ⟨hnone, hnameParams, hnameBody, -, hnameRest⟩ := hname
    have hsigil : sigil ∉ o.shorthand.name.getD [] := fun hm => hnone (exists_mem_marksOf hm _)
    -- Behind a cut there are only cuts, so each part may be taken on its own.
    have hinside := fromCut_of_append hcut
    have hbehind := fromCut_of_append hinside
    obtain ⟨hp, hb⟩ := run_parts ho hinside
    rw [render, images, List.map_append, List.map_append,
      Shorthand.sigilPlaces_standard (Opening.read?_spans ho).1.name hsigil w _ hp hb,
      ← ihParams hk (fromCut_append hinside).1 hnameParams,
      ← ihBody hk (fromCut_append hbehind).1 hnameBody,
      ← ihRest hk (fromCut_of_append (fromCut_of_append hbehind)) hnameRest]
    simp only [Image.output_replace, List.length_append]
  | leftover k joined cs hcode hread ih =>
    obtain rfl := hk hcode
    rw [hread] at hcut hname ⊢
    have hrest := ih hk hcut (fun hm => hname (List.mem_cons_of_mem _ hm)) (i.copy [sigil])
    rw [Image.output_copy, List.length_append] at hrest
    rw [render, trace_cons_of_isQuiet isQuiet_sigil, images, List.map_cons, ← hrest]
    rfl
  | step k joined c cs hs hread ih =>
    rw [hread] at hcut hname ⊢
    have hrest := ih (Context.step_settled hk c _) (fromCut_of_append hcut)
      (fun hm => hname (List.mem_append_right _ hm)) (i.copy (firstStep k c cs).text)
    rw [Image.output_copy, List.length_append] at hrest
    rw [render, trace_step_render k c cs List.prefix_rfl, sigilPlaces, isCodeChar_firstStep, if_neg hs, images, hrest]

theorem leftoverSites_render (cs : List Char) (w : Keyword)
    (hcut : ∀ m ∈ fromCut ((ofText cs).marks w), m = .cut)
    (hname : .inName ∉ (ofText cs).marks w) : leftoverSites ((ofText cs).render w) =
      ((ofText cs).images w .start).map fun j => Site.atEnd j.output := by
  have hplaces : sigilPlaces 0 (trace .start ((ofText cs).render w)) =
      ((ofText cs).images w .start).map fun j => j.output.length :=
    sigilPlaces_render Context.start_settled false cs w hcut hname .start
  rw [leftoverSites_eq, hplaces, List.map_map]
  refine List.map_congr_left fun j hj => ?_
  obtain ⟨back, hback⟩ := output_of_mem_images hj
  have hback : j.output ++ [sigil] ++ back = (ofText cs).render w := hback
  rw [Function.comp_apply, ← hback, List.append_assoc, List.take_left]

end Outline

end Florin
