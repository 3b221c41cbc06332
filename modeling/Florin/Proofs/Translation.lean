import Florin.Proofs.Reading
import Florin.Proofs.Trimming

/-! # Translation of programs

The expansion of a printed program is the program written out. The proof goes by induction over the
program: each text and each shorthand of the printed program is read as itself, whatever follows it.
-/
namespace Florin
open Text Lexical

/-! ## The end of a body -/

namespace Head

theorem solid_withBlock (h : Head) (params body : List Char) : Solid (h.withBlock params body) := by
  unfold withBlock
  refine Solid.append ?_ _
  split <;> exact (solid_around .curly body).append _

theorem solid_withExpression (h : Head) (params : List Char) {body : List Char} (hb : Solid body) :
    Solid (h.withExpression params body) := hb.append _

theorem trims_declare (h : Head) (w : Keyword) {function : List Char} (hf : Solid function) :
    Trims (h.declare w false function) (h.declare w true function) := by
  unfold declare
  cases h.name with
  | none => exact Trims.refl (solid_around .paren function)
  | some name =>
    simp only [if_true, List.append_nil]
    exact ⟨hf.append _, Or.inr rfl⟩

end Head

namespace Program

theorem write_eq_nil {p : Program} (hp : p.print = []) (w : Keyword) (isBody : Bool) :
    p.write w isBody = [] := by
  have hhead (h : Head) (more : List Char) : h.print ++ more ≠ [] := by
    obtain ⟨back, hb⟩ := h.print_head
    simp [hb]
  cases p with
  | done => rfl
  | text cs rest =>
    obtain ⟨rfl, hrest⟩ := List.append_eq_nil_iff.mp hp
    exact write_eq_nil hrest w isBody
  | group => simp [print, Bracket.around] at hp
  | nullary h => exact absurd hp (hhead h _)
  | block h => exact absurd hp (hhead h _)
  | arrow isAsync name => exact absurd hp (hhead ⟨isAsync, false, name⟩ _)

section Trimming
variable {w : Keyword} {front : List Char} {rest : Program}

/-- A piece of a body is trimmed only where nothing is printed behind it. -/
theorem trims_append {whole trimmed : List Char}
    (hlast : (front ++ rest.print).getLast?.any (fun c => !isBlank c) = true)
    (hrest : rest.print.getLast?.any (fun c => !isBlank c) = true →
      Trims (rest.write w false) (rest.write w true))
    (hnil : rest.print = [] → Trims whole trimmed) (hcons : rest.print ≠ [] → whole = trimmed) :
    Trims (whole ++ rest.write w false) (trimmed ++ rest.write w true) := by
  by_cases he : rest.print = []
  · rw [write_eq_nil he, write_eq_nil he, List.append_nil, List.append_nil]
    exact hnil he
  · rw [List.getLast?_append_of_ne_nil _ he] at hlast
    rw [hcons he]
    exact (hrest hlast).append trimmed

theorem trims_declare_append (h : Head) {function : List Char} (hf : Solid function) (front : List Char)
    (hlast : (front ++ rest.print).getLast?.any (fun c => !isBlank c) = true)
    (hrest : rest.print.getLast?.any (fun c => !isBlank c) = true →
      Trims (rest.write w false) (rest.write w true)) :
    Trims (h.declare w false function ++ rest.write w false)
      (h.declare w rest.print.isEmpty function ++ rest.write w true) := by
  refine trims_append hlast hrest (fun he => ?_) (fun he => ?_)
  · rw [he]
    exact h.trims_declare w hf
  · rw [List.isEmpty_eq_false_iff.mpr he]

end Trimming

theorem trims_write {p : Program} (hp : p.Valid)
    (hlast : p.print.getLast?.any (fun c => !isBlank c) = true)
    (htexts : ∀ cs ∈ p.ownTexts, Lacks [',', ';'] cs) (w : Keyword) :
    Trims (p.write w false) (p.write w true) := by
  induction p with
  | done => simp [print] at hlast
  | text cs rest ih =>
    refine trims_append hlast (fun hl => ih hp.2.2 hl fun x hx => htexts x (List.mem_cons_of_mem _ hx))
      (fun he => ?_) fun _ => rfl
    rw [print, he, List.append_nil] at hlast
    obtain ⟨c, hc, hblank⟩ := (Option.any_eq_true _ _).mp hlast
    have hsemi := getLast_ne_semicolon hp.1.1 (htexts cs List.mem_cons_self) c hc
    obtain ⟨front, rfl⟩ := List.getLast?_eq_some_iff.mp hc
    exact Trims.refl ⟨front, c, rfl, by simpa using hblank, hsemi⟩
  | group b inner rest ihInner ihRest =>
    exact trims_append hlast (fun hl => ihRest hp.2 hl htexts)
      (fun _ => Trims.refl (solid_around b _)) fun _ => rfl
  | nullary head body rest ihBody ihRest =>
    refine trims_declare_append head (head.solid_withBlock _ _)
      (head.print ++ ' ' :: Bracket.curly.around body.print) ?_ fun hl => ihRest hp.2.2 hl htexts
    simpa [print] using hlast
  | block head params body rest ihParams ihBody ihRest =>
    refine trims_declare_append head (head.solid_withBlock _ _)
      (head.print ++ (Bracket.paren.around params.print ++ ' ' :: Bracket.curly.around body.print)) ?_
      fun hl => ihRest hp.2.2.2 hl htexts
    simpa [print] using hlast
  | arrow isAsync name params body rest ihParams ihBody ihRest =>
    obtain ⟨-, -, hbody, hexpr, -, hrest⟩ := hp
    have hsolid := (ihBody hbody hexpr.last hexpr.texts).solid
    refine trims_declare_append ⟨isAsync, false, name⟩ (Head.solid_withExpression _ _ hsolid)
      (Head.print ⟨isAsync, false, name⟩ ++ (Bracket.paren.around params.print ++ ' ' :: body.print)) ?_
      fun hl => ihRest hrest hl htexts
    simpa [print] using hlast

/-! ## Reading a program back -/

theorem write_eq_print {p : Program} (h : sigil ∉ p.print) (w : Keyword) (isBody : Bool) :
    p.write w isBody = p.print := by
  have hhead (h : Head) : sigil ∈ h.print := by simp [Head.print]
  induction p generalizing isBody with
  | done => rfl
  | text cs rest ih =>
    rw [write, print, ih fun hm => h (List.mem_append_right _ hm)]
  | group b inner rest ihInner ihRest =>
    have hinner : sigil ∉ inner.print := fun hm => h (by simp [print, Bracket.around, hm])
    rw [write, print, ihInner hinner, ihRest fun hm => h (List.mem_append_right _ hm)]
  | nullary head => exact absurd (List.mem_append_left _ (hhead head)) h
  | block head => exact absurd (List.mem_append_left _ (hhead head)) h
  | arrow isAsync name => exact absurd (List.mem_append_left _ (hhead ⟨isAsync, false, name⟩)) h

/-- What a text meets behind it: a bracket, a stop, a sigil or the word `async`. -/
theorem head_of_follows {cs : List Char} {p : Program} (h : p.Follows cs) {after : List Char}
    (hafter : Stops after) : ∀ c ∈ (p.print ++ after).head?,
      c ∈ Bracket.all ++ stops ∨ ∃ isAsync : Bool, c = (if isAsync then 'a' else sigil) ∧ MayPrecede cs isAsync := by
  have hhead (head : Head) (more : List Char) (hm : MayPrecede cs head.isAsync) :
      ∀ c ∈ (head.print ++ more).head?,
        ∃ isAsync : Bool, c = (if isAsync then 'a' else sigil) ∧ MayPrecede cs isAsync := by
    intro c hc
    obtain ⟨back, hp⟩ := head.print_head
    rw [hp] at hc
    obtain rfl := Option.some.inj hc
    exact ⟨head.isAsync, rfl, hm⟩
  intro c hc
  cases p with
  | done => exact Or.inl (List.mem_append_right _ (hafter c hc))
  | text => exact h.elim
  | group b inner rest =>
    obtain rfl := Option.some.inj hc
    exact Or.inl (List.mem_append_left _ b.opener_mem)
  | nullary head body rest =>
    rw [print, List.append_assoc] at hc
    exact Or.inr (hhead head _ h c hc)
  | block head params body rest =>
    rw [print, List.append_assoc] at hc
    exact Or.inr (hhead head _ h c hc)
  | arrow isAsync name params body rest =>
    rw [print, List.append_assoc] at hc
    exact Or.inr (hhead ⟨isAsync, false, name⟩ _ h c hc)

theorem render_read_text {cs : List Char} (hcs : IsText cs) {p : Program} (h : p.Follows cs)
    {after : List Char} (hafter : Stops after) (w : Keyword) :
    (Outline.read .start false (cs ++ (p.print ++ after))).render w =
      cs ++ (Outline.read .start false (p.print ++ after)).render w := by
  have hhead := head_of_follows h hafter
  have hapart : Apart cs (p.print ++ after) := by
    intro c d _ hd _
    rcases hhead d hd with hd | ⟨isAsync, rfl, -⟩
    · exact (by decide : ∀ d ∈ Bracket.all ++ stops, d ≠ '/' ∧ d ≠ '*') d hd
    · cases isAsync <;> decide
  have hdetached : Detached (p.print ++ after) := by
    intro d hd
    rcases hhead d hd with hd | ⟨isAsync, rfl, -⟩
    · exact (by decide : ∀ d ∈ Bracket.all ++ stops, isBlank d = false ∧ d ∉ "sync".toList) d hd
    · cases isAsync <;> decide
  have hasync : (p.print ++ after).head? = some sigil → ¬EndsInWord false cs := by
    intro hs hends
    rcases hhead sigil hs with hd | ⟨isAsync, hd, hm⟩
    · exact absurd hd (by decide)
    · cases isAsync with
      | false => exact hm (endsInAsync_of_endsInWord hends)
      | true => exact absurd hd (by decide)
  have hread := Outline.render_read_text Context.start_settled false (by rw [hcs.1]; rfl) hapart
    (fun s hs => hcs.2 s hs sigil List.mem_cons_self) hdetached hasync w
  rw [hread]
  congr 1
  -- Only a shorthand with the word `async` depends on the end of the text.
  by_cases ha : (p.print ++ after).head? = some 'a'
  · rcases hhead 'a' ha with hd | ⟨isAsync, hd, hm⟩
    · exact absurd hd (by decide)
    · cases isAsync with
      | false => exact absurd hd (by decide)
      | true => rw [joinsAfter_false, show cs.getLast?.any Identifier.isContinue = false from hm]
  · rw [Outline.read_joined ha]

theorem render_read_bracket {c : Char} (hc : c ∈ Bracket.all) (cs : List Char) (w : Keyword) :
    (Outline.read .start false (c :: cs)).render w = c :: (Outline.read .start false cs).render w := by
  obtain ⟨hquiet, hjoins, hsigil, ha⟩ := (by decide : ∀ c ∈ Bracket.all, isQuiet c = true ∧
    Identifier.isContinue c = false ∧ c ≠ sigil ∧ c ≠ 'a') c hc
  have hasync : Opening.async? (c :: cs) = none := Opening.async?_eq_none_of_head (by simpa using ha)
  have hopen : (if Context.start.isCode then Opening.read? false (c :: cs) else none) = none := by
    simp [Opening.read?, Opening.plain?, hsigil, hasync]
  have hread := Outline.render_read_narrow (w := w) hopen (by simp [hsigil]) fun d _ => by
    rw [Context.step_start_of_isQuiet hquiet]
  rw [hread, Context.step_start_of_isQuiet hquiet, hjoins]

section Shorthands
variable {h : Head} {params body rest : Program} {w : Keyword}

/-- The whole printed program is read as it is written. -/
def ReadsBack (p : Program) (w : Keyword) : Prop :=
  (Outline.read .start false p.print).render w = p.write w false

theorem isContinue_head (c : Char) (hc : Identifier.isContinue c = false) (cs : List Char) :
    ∀ d ∈ (c :: cs).head?, Identifier.isContinue d = false := by
  intro d hd
  obtain rfl := Option.some.inj hd
  exact hc

theorem render_read_nullary (hv : h.Valid) (hb : body.Valid) (hbody : body.ReadsBack w)
    (after : List Char) :
    (Outline.read .start false (h.print ++ ' ' :: (Bracket.curly.around body.print ++ after))).render w =
      h.declare w false (h.withBlock [] (body.write w false)) ++
        (Outline.read .start false after).render w := by
  have hspace := isContinue_head ' ' (by decide) (Bracket.curly.around body.print ++ after)
  obtain ⟨s, hs, hhas⟩ := Shorthand.read?_print hv hspace (skipBlanks_space _) (Or.inr rfl) rfl
    (Shorthand.readBody?_print hb _ after)
  have hread := Outline.render_read_print hs hhas (Or.inl ⟨_, Bracket.around_append .curly [' '] _ after⟩) w
  rw [hread, hhas.standard_block, ← hbody, Outline.read_nil]
  rfl

theorem render_read_block (hv : h.Valid) (hp : params.Valid) (hb : body.Valid)
    (hparams : params.ReadsBack w) (hbody : body.ReadsBack w) (after : List Char) :
    (Outline.read .start false (h.print ++ (Bracket.paren.around params.print ++
      ' ' :: (Bracket.curly.around body.print ++ after)))).render w =
      h.declare w false (h.withBlock (params.write w false) (body.write w false)) ++
        (Outline.read .start false after).render w := by
  obtain ⟨s, hs, hhas⟩ := Shorthand.read?_print hv (isContinue_head '(' (by decide) _) rfl (Or.inl rfl)
    (Shorthand.readParams?_print hp (' ' :: (Bracket.curly.around body.print ++ after)))
    (Shorthand.readBody?_print hb _ after)
  have hend := Bracket.around_append .curly (Bracket.paren.around params.print ++ [' ']) body.print after
  rw [List.append_assoc, List.singleton_append] at hend
  refine (Outline.render_read_print hs hhas (Or.inl ⟨_, hend⟩) w).trans ?_
  rw [hhas.standard_block, ← hparams, ← hbody]
  rfl

theorem render_read_arrow {isAsync : Bool} {name : Option (List Char)}
    (hv : Head.Valid ⟨isAsync, false, name⟩) (hp : params.Valid) (hb : body.Valid)
    (hexpr : body.IsExpression) (hrest : rest.FollowsExpression body.print)
    (hparams : params.ReadsBack w) (hbody : body.ReadsBack w) {after : List Char} (hafter : Stops after) :
    (Outline.read .start false (Head.print ⟨isAsync, false, name⟩ ++ (Bracket.paren.around params.print ++
      ' ' :: (body.print ++ (rest.print ++ after))))).render w =
      Head.declare ⟨isAsync, false, name⟩ w false
        (Head.withExpression ⟨isAsync, false, name⟩ (params.write w false) (body.write w true)) ++
          (Outline.read .start false (rest.print ++ after)).render w := by
  obtain ⟨c, hc, hfirst⟩ := (Option.any_eq_true _ _).mp hexpr.first
  simp only [Bool.and_eq_true, Bool.not_eq_true', decide_eq_true_eq] at hfirst
  obtain ⟨more, hmore⟩ := List.head?_eq_some_iff.mp hc
  have hskip : skipBlanks (' ' :: (body.print ++ (rest.print ++ after))) =
      body.print ++ (rest.print ++ after) := by
    rw [skipBlanks_space, hmore]
    exact skipBlanks_cons hfirst.1 _
  have hcurly : body.print.head?.any (· ≠ '{') = true := by simp [hc, hfirst.2]
  have hreadBody := Shorthand.readBody?_expression hcurly (expression_print hb hexpr hrest hafter)
  obtain ⟨s, hs, hhas⟩ := Shorthand.read?_print hv (isContinue_head '(' (by decide) _) rfl (Or.inl rfl)
    (Shorthand.readParams?_print hp (' ' :: (body.print ++ (rest.print ++ after))))
    (by rw [hskip]; exact hreadBody)
  obtain ⟨gap, stop, hsplit, hgap, hstop, -⟩ := exists_gap hrest hafter
  have hhead : (rest.print ++ after).head? ≠ some 'a' := by
    intro ha
    rw [hsplit] at ha
    cases gap with
    | nil => exact absurd (hstop 'a' ha) (by decide)
    | cons d gap =>
      obtain rfl := Option.some.inj ha
      exact absurd (hgap.head 'a' rfl) (by decide)
  refine (Outline.render_read_print hs hhas (Or.inr hhead) w).trans ?_
  rw [hhas.standard_expression, ← (trims_write hb hexpr.last hexpr.texts w).clean, ← hparams,
    ← hbody]
  rfl

end Shorthands

/-- A printed program is read as it is written, wherever it stands. -/
theorem render_read {p : Program} (hp : p.Valid) {after : List Char} (hafter : Stops after)
    (w : Keyword) :
    (Outline.read .start false (p.print ++ after)).render w =
      p.write w false ++ (Outline.read .start false after).render w := by
  have hwhole {p : Program} (hread : (Outline.read .start false (p.print ++ [])).render w =
      p.write w false ++ (Outline.read .start false []).render w) : p.ReadsBack w := by
    rw [List.append_nil, Outline.read_nil, Outline.render, List.append_nil] at hread
    exact hread
  induction p generalizing after with
  | done => rfl
  | text cs rest ih =>
    obtain ⟨hcs, hfollows, hrest⟩ := hp
    rw [print, List.append_assoc, render_read_text hcs hfollows hafter, ih hrest hafter, write,
      List.append_assoc]
  | group b inner rest ihInner ihRest =>
    have hcloser : Stops (b.closer :: (rest.print ++ after)) := by
      intro c hc
      obtain rfl := Option.some.inj hc
      cases b <;> decide
    rw [print, List.append_assoc, Bracket.around, List.cons_append, List.append_assoc,
      render_read_bracket b.opener_mem, List.singleton_append, ihInner hp.1 hcloser,
      render_read_bracket b.closer_mem, ihRest hp.2 hafter]
    simp [write, Bracket.around]
  | nullary head body rest ihBody ihRest =>
    obtain ⟨hv, hb, hrest⟩ := hp
    have hread := render_read_nullary hv hb (hwhole (ihBody hb stops_nil)) (rest.print ++ after)
    rw [ihRest hrest hafter] at hread
    simpa [print, write] using hread
  | block head params body rest ihParams ihBody ihRest =>
    obtain ⟨hv, hpar, hb, hrest⟩ := hp
    have hread := render_read_block hv hpar hb (hwhole (ihParams hpar stops_nil))
      (hwhole (ihBody hb stops_nil)) (rest.print ++ after)
    rw [ihRest hrest hafter] at hread
    simpa [print, write] using hread
  | arrow isAsync name params body rest ihParams ihBody ihRest =>
    obtain ⟨hv, hpar, hb, hexpr, hfollows, hrest⟩ := hp
    have hread := render_read_arrow hv hpar hb hexpr hfollows (hwhole (ihParams hpar stops_nil))
      (hwhole (ihBody hb stops_nil)) hafter
    rw [ihRest hrest hafter] at hread
    simpa [print, write] using hread

/-- The expansion of a printed program is the program written out. -/
theorem expand_print {p : Program} (hp : p.Valid) (w : Keyword) : expand w p.print = p.write w false := by
  have hread := render_read hp stops_nil w
  rw [List.append_nil, Outline.read_nil, Outline.render, List.append_nil] at hread
  unfold expand
  split
  · exact hread
  · rename_i hsigil
    exact (write_eq_print hsigil w false).symm

theorem expand_print_of_nested :
    expand .const "async ƒ f(a) [ƒ (b) 'ƒ']; ƒ* g() {a}".toList =
      "const f = async (a) => [((b) => 'ƒ')];; const g = function* () {a};".toList :=
  expand_print (p := .arrow true (some ['f']) (.text ['a'] .done)
    (.group .square (.arrow false none (.text ['b'] .done) (.text "'ƒ'".toList .done) .done) .done)
    (.text [';', ' '] (.block ⟨false, true, some ['g']⟩ .done (.text ['a'] .done) .done)))
    (by decide +kernel) .const

end Program

end Florin
