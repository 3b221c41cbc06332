import Florin.Proofs.FixedPoint
import Florin.Proofs.SigilTests
import Florin.Scan

/-! # The scan follows the outline

The outline looks ahead for a sigil behind the word `async`; the scan copies the word and takes it back
when it meets the sigil. Both come to the same: the scan puts out the rendering of the outline, and it
tries the sigils that the outline shows.
-/
namespace Florin
open Text Lexical

namespace Outline

/-- What becomes of the sigils of an outline, given the place of its start. -/
def attempts (place : Nat) : Outline → List Attempt
  | .done => []
  | .text cs rest => rest.attempts (place + cs.length)
  | .leftover rest => ⟨place, .leftover⟩ :: rest.attempts (place + 1)
  | .shorthand gap s params body rest =>
    let start := place + (asyncPart gap).length + 1
    ⟨place + (asyncPart gap).length, .shorthand gap.isSome s⟩ ::
      (params.attempts (start + s.lead.length) ++
        body.attempts (start + s.lead.length + s.params.length + s.middle.length) ++
        rest.attempts (start + s.span.length))

/-- What a scan gives that meets this outline. -/
def scan (w : Keyword) (place : Nat) (o : Outline) : Scan := ⟨o.render w, o.attempts place⟩

/-- A text read character by character. -/
def spelled (cs : List Char) (rest : Outline) : Outline := cs.foldr (fun c o => .text [c] o) rest

theorem scan_text (cs : List Char) (o : Outline) (w : Keyword) (place : Nat) :
    (text cs o).scan w place = ⟨cs, []⟩ ++ o.scan w (place + cs.length) := rfl

theorem scan_spelled (cs : List Char) (o : Outline) (w : Keyword) (place : Nat) :
    (spelled cs o).scan w place = ⟨cs, []⟩ ++ o.scan w (place + cs.length) := by
  induction cs generalizing place with
  | nil => rfl
  | cons c cs ih =>
    change (text [c] (spelled cs o)).scan w place = _
    rw [scan_text, ih, ← Scan.append_assoc, Nat.add_assoc, List.length_singleton, Nat.add_comm 1]
    rfl

/-! ## Words and blanks -/

theorem read_cons {c : Char} {cs : List Char} (hq : isQuiet c = true) (hc : c ≠ sigil) {joined : Bool}
    (ha : joined = true ∨ Opening.async? (c :: cs) = none) :
    read .start joined (c :: cs) = text [c] (read .start (Identifier.isContinue c) cs) := by
  have hopen : (if Context.start.isCode then Opening.read? joined (c :: cs) else none) = none := by
    rcases ha with rfl | ha <;> simp [Opening.read?, Opening.plain?, *]
  rw [read_narrow hopen (by simp [hc]) fun d _ => by rw [Context.step_start_of_isQuiet hq],
    Context.step_start_of_isQuiet hq]

theorem read_wordChars {word : List Char} (h : ∀ c ∈ word, Scan.isWordChar c = true) (cs : List Char) :
    read .start true (word ++ cs) = spelled word (read .start true cs) := by
  induction word with
  | nil => rfl
  | cons c word ih =>
    obtain ⟨hc, hword⟩ := List.forall_mem_cons.mp h
    simp only [Scan.isWordChar, Bool.and_eq_true, decide_eq_true_eq] at hc
    rw [List.cons_append, read_cons (isQuiet_of_isContinue hc.2) hc.1 (Or.inl rfl), hc.2, ih hword]
    rfl

theorem read_blanks {gap : List Char} (h : ∀ c ∈ gap, isBlank c = true) (joined : Bool) (cs : List Char) :
    read .start joined (gap ++ cs) = spelled gap (read .start (joinsAfter joined gap) cs) := by
  induction gap generalizing joined with
  | nil => rfl
  | cons c gap ih =>
    obtain ⟨hc, hgap⟩ := List.forall_mem_cons.mp h
    have hne {d : Char} (hd : isBlank d = false) : c ≠ d := by
      rintro rfl
      simp [hc] at hd
    have ha : Opening.async? (c :: (gap ++ cs)) = none :=
      Opening.async?_eq_none_of_head (by simpa using hne (by decide))
    rw [List.cons_append, read_cons (isQuiet_of_isIdle (isIdle_of_isBlank hc)) (hne (by decide))
      (Or.inr ha), ih hgap]
    rfl

/-- The word `async` and blanks are text where no shorthand follows. -/
theorem read_async {gap : List Char} (h : ∀ c ∈ gap, isBlank c = true) {cs : List Char}
    (hcs : Opening.plain? (skipBlanks cs) = none) : read .start false (asyncWord ++ gap ++ cs) =
      spelled (asyncWord ++ gap) (read .start (joinsAfter false (asyncWord ++ gap)) cs) := by
  have ha : Opening.async? (asyncWord ++ (gap ++ cs)) = none := by
    rw [Opening.async?_of_word, skipBlanks_append_of_blanks h, hcs]
    rfl
  have hhead : read .start false (asyncWord ++ (gap ++ cs)) =
      text ['a'] (read .start true ("sync".toList ++ (gap ++ cs))) :=
    read_cons (by decide) (by decide) (Or.inr ha)
  have hjoined : joinsAfter false (asyncWord ++ gap) = joinsAfter true gap := List.foldl_append
  rw [List.append_assoc, hhead, read_wordChars (by decide), read_blanks h, hjoined]
  rfl

end Outline

theorem Opening.read?_sigil_eq_none {cs : List Char} (h : Shorthand.read? cs = none) (joined : Bool) :
    read? joined (sigil :: cs) = none := by
  have ha : async? (sigil :: cs) = none := async?_eq_none_of_head (by simp [(by decide : sigil ≠ 'a')])
  simp [read?, plain?, h, ha]

namespace Scan

theorem word?_spec {joined : Bool} {c : Char} {cs word after : List Char}
    (h : word? joined (c :: cs) = some (word, after)) : joined = false ∧ Identifier.isStart c = true ∧
      word = c :: cs.takeWhile isWordChar ∧ after = cs.dropWhile isWordChar := by
  rw [word?, Option.ite_none_right_eq_some, Bool.and_eq_true, Bool.not_eq_true'] at h
  obtain ⟨rfl, rfl⟩ := Prod.mk.inj (Option.some.inj h.2)
  exact ⟨h.1.1, h.1.2, rfl, rfl⟩

theorem word?_append {joined : Bool} {cs word after : List Char} (h : word? joined cs = some (word, after)) :
    cs = word ++ after ∧ word.getLast?.any Identifier.isContinue = true := by
  cases cs with
  | nil => simp [word?] at h
  | cons c cs =>
    obtain ⟨-, hstart, rfl, rfl⟩ := word?_spec h
    refine ⟨by simp, ?_⟩
    have hchars : ∀ d ∈ c :: cs.takeWhile isWordChar, Identifier.isContinue d = true :=
      List.forall_mem_cons.mpr ⟨Identifier.isContinue_of_isStart hstart, fun d hd => by
        have hword : isWordChar d = true := List.mem_takeWhile_imp hd
        simp only [isWordChar, Bool.and_eq_true] at hword
        exact hword.2⟩
    rw [List.getLast?_eq_some_getLast (List.cons_ne_nil _ _)]
    exact hchars _ (List.getLast_mem _)

theorem plain?_eq_none_of_word? {joined : Bool} {c : Char} {cs word after : List Char} (hc : c ≠ sigil)
    (h : word? joined (c :: cs) = some (word, after)) : Opening.plain? (skipBlanks (c :: cs)) = none := by
  have hcontinue := Identifier.isContinue_of_isStart (word?_spec h).2.1
  rw [skipBlanks_cons (isBlank_eq_false_of_isContinue hcontinue), Opening.plain?, if_neg hc]

theorem read_word {joined : Bool} {c : Char} {cs word after : List Char} (hc : c ≠ sigil)
    (h : word? joined (c :: cs) = some (word, after)) (hne : word ≠ asyncWord) :
    Outline.read .start joined (c :: cs) = Outline.spelled word (Outline.read .start true after) := by
  obtain ⟨-, hstart, rfl, rfl⟩ := word?_spec h
  have hcontinue := Identifier.isContinue_of_isStart hstart
  have ha : Opening.async? (c :: cs) = none := by
    by_cases hasync : asyncWord <+: c :: cs
    · obtain ⟨more, hmore⟩ := hasync
      have hword : c :: cs.takeWhile isWordChar = asyncWord ++ more.takeWhile isWordChar := by
        rw [← List.takeWhile_cons_of_pos (by simp [isWordChar, hc, hcontinue]), ← hmore,
          List.takeWhile_append_of_pos (by decide)]
      rw [← hmore, Opening.async?_of_word]
      -- The word goes on behind `async`, with neither a blank nor a sigil.
      cases more with
      | nil => exact absurd hword hne
      | cons d more =>
        by_cases hd : isWordChar d = true
        · simp only [isWordChar, Bool.and_eq_true, decide_eq_true_eq] at hd
          simp [skipBlanks_cons (isBlank_eq_false_of_isContinue hd.2), Opening.plain?, hd.1]
        · rw [List.takeWhile_cons_of_neg hd] at hword
          exact absurd hword hne
    · exact Opening.async?_of_not_word hasync
  have hchars : ∀ d ∈ cs.takeWhile isWordChar, isWordChar d = true := fun d hd => List.mem_takeWhile_imp hd
  have hrest := Outline.read_wordChars hchars (cs.dropWhile isWordChar)
  rw [List.takeWhile_append_dropWhile] at hrest
  rw [Outline.read_cons (isQuiet_of_isContinue hcontinue) hc (Or.inr ha), hcontinue, hrest]
  rfl

/-- The outline where the scan meets neither a sigil nor a word. -/
theorem read?_eq_none_of_word? {k : Context} {joined : Bool} {c : Char} {cs : List Char}
    (hs : ¬(k.isCode && c = sigil) = true) (hw : (if k.isCode then word? joined (c :: cs) else none) = none) :
    (if k.isCode then Opening.read? joined (c :: cs) else none) = none := by
  split
  · rename_i hcode
    have hc : c ≠ sigil := by simpa [hcode] using hs
    cases joined with
    | true => simp [Opening.read?, Opening.plain?, hc]
    | false =>
      have ha : c ≠ 'a' := by
        rintro rfl
        simp [hcode, word?, (by decide : Identifier.isStart 'a' = true)] at hw
      have hasync : Opening.async? (c :: cs) = none := Opening.async?_eq_none_of_head (by simpa using ha)
      simp [Opening.read?, Opening.plain?, hc, hasync]
  · rfl

/-- What is pending stays so behind a blank in code only. -/
theorem pendingAfter_of_ne_none {σ : State} {c : Char} (h : σ.pendingAfter c ≠ none) :
    (σ.context.isCode = true ∧ isBlank c = true) ∧ σ.pendingAfter c = σ.pending := by
  unfold State.pendingAfter at h ⊢
  split
  · rename_i hblank
    exact ⟨by simpa using hblank, rfl⟩
  · rename_i hblank
    exact absurd (if_neg hblank) h

/-- What a scan may still take back of its output: nothing, or a word `async` and blanks at the end. The
outline is read from the context at the start of this text. -/
inductive Holds (σ : State) : Context → Bool → List Char → List Char → Prop
  | free (h : σ.pending = none) : Holds σ σ.context σ.joined σ.done.output []
  | word {front gap : List Char} (hpending : σ.pending = some (byteLength front))
      (houtput : σ.done.output = front ++ (asyncWord ++ gap)) (hcontext : σ.context = .start)
      (hjoined : σ.joined = joinsAfter false (asyncWord ++ gap))
      (hgap : ∀ c ∈ gap, isBlank c = true) : Holds σ .start false front (asyncWord ++ gap)

namespace Holds
variable {σ : State} {k : Context} {joined : Bool} {front held : List Char}

/-- What is held is put out for good where no shorthand follows. -/
theorem release (h : Holds σ k joined front held) {cs : List Char}
    (hcs : σ.pending.isSome = true → Opening.plain? (skipBlanks cs) = none) (w : Keyword) (before : Nat) :
    ⟨front, σ.done.attempts⟩ ++ (Outline.read k joined (held ++ cs)).scan w before =
      σ.done ++ (Outline.read σ.context σ.joined cs).scan w (before + held.length) := by
  cases h with
  | free => rfl
  | word hpending houtput hcontext hjoined hgap =>
    rw [Outline.read_async hgap (hcs (by rw [hpending]; rfl)), Outline.scan_spelled, hcontext, hjoined,
      ← append_assoc]
    congr 1
    simp only [append_eq, ← houtput, List.append_nil]

theorem opening (h : Holds σ k joined front held) (hk : σ.context = .start) {cs after : List Char}
    {s : Shorthand} (hs : Shorthand.read? cs = some (s, after)) : k = .start ∧ σ.cut = front ∧
      ∃ gap, Opening.read? joined (held ++ sigil :: cs) = some ⟨gap, s, after⟩ ∧ asyncPart gap = held ∧
        gap.isSome = σ.pending.isSome := by
  have hplain : Opening.plain? (sigil :: cs) = some ⟨none, s, after⟩ := by simp [Opening.plain?, hs]
  cases h with
  | free hpending =>
    refine ⟨hk, by simp [State.cut, hpending], none, ?_, rfl, by rw [hpending]; rfl⟩
    simp [Opening.read?, hplain]
  | @word front gap hpending houtput hcontext hjoined hgap =>
    have hcut : σ.cut = front := by
      rw [State.cut, hpending, houtput]
      exact takeBytes_append _ _
    refine ⟨rfl, hcut, some gap, ?_, rfl, by rw [hpending]; rfl⟩
    have hasync : Opening.async? (asyncWord ++ (gap ++ sigil :: cs)) = some ⟨some gap, s, after⟩ := by
      rw [Opening.async?_of_word, skipBlanks_append_of_blanks hgap, skipBlanks_cons (by decide),
        hplain, List.takeWhile_append_of_pos hgap, List.takeWhile_cons_of_neg (by decide),
        List.append_nil]
      rfl
    have hnone : Opening.plain? (asyncWord ++ (gap ++ sigil :: cs)) = none := by
      change Opening.plain? ('a' :: _) = none
      simp [Opening.plain?, (by decide : 'a' ≠ sigil)]
    rw [List.append_assoc, Opening.read?, hnone, hasync]
    rfl

theorem async (hk : σ.context = .start) :
    Holds (σ.copyWord asyncWord) .start false σ.done.output asyncWord :=
  @word _ σ.done.output [] (by simp [State.copyWord, State.copy]) rfl hk rfl (by simp)

theorem blank (h : Holds σ k joined front held) {c : Char} (hc : σ.pendingAfter c ≠ none) :
    Holds (σ.copyStep c [c] .start) k joined front (held ++ [c]) := by
  obtain ⟨⟨-, hblank⟩, hpending⟩ := pendingAfter_of_ne_none hc
  cases h with
  | free hnone => exact absurd (hpending.trans hnone) hc
  | @word front gap hp houtput hcontext hjoined hgap =>
    rw [List.append_assoc]
    refine .word (hpending.trans hp) ?_ rfl ?_ (List.forall_mem_append.mpr ⟨hgap, by simpa using hblank⟩)
    · rw [← List.append_assoc asyncWord, ← List.append_assoc, ← houtput]
      rfl
    · simp [joinsAfter, State.copyStep, State.copy]

/-- Nothing is held that the next character does not release. -/
theorem plain?_eq_none (h : Holds σ k joined front held) {c : Char} {cs : List Char}
    (hs : ¬(σ.context.isCode && c = sigil) = true) (hc : cs = [] ∨ σ.pendingAfter c = none)
    (hpending : σ.pending.isSome = true) : Opening.plain? (skipBlanks (c :: cs)) = none := by
  cases h with
  | free hnone => simp [hnone] at hpending
  | word hp houtput hcontext hjoined hgap =>
    have hcode : σ.context.isCode = true := by rw [hcontext]; rfl
    have hne : c ≠ sigil := by simpa [hcode] using hs
    by_cases hblank : isBlank c = true
    · have hcs : cs = [] := by simpa [State.pendingAfter, hcode, hblank, hp] using hc
      rw [hcs, skipBlanks, List.dropWhile_cons_of_pos hblank]
      rfl
    · rw [skipBlanks_cons (by simpa using hblank), Opening.plain?, if_neg hne]

/-! ## One round of the scan -/

/-- Text that is put out, and the outline of what is ahead then, make up the outline from before. -/
theorem scan_copy (h : Holds σ k joined front held) {cs text : List Char} {o : Outline} {w : Keyword}
    {before : Nat} (hcs : σ.pending.isSome = true → Opening.plain? (skipBlanks cs) = none)
    (hread : (Outline.read σ.context σ.joined cs).scan w (before + held.length) =
      ⟨text, []⟩ ++ o.scan w (before + held.length + text.length))
    (context : Context) (pending : Option Nat) :
    ⟨front, σ.done.attempts⟩ ++ (Outline.read k joined (held ++ cs)).scan w before =
      (σ.copy text context pending).done ++ o.scan w (before + held.length + text.length) := by
  rw [h.release hcs, hread, ← append_assoc]
  rfl

theorem scan_word (h : Holds σ k joined front held) (hk : σ.context = .start) {c : Char}
    {cs word after : List Char} (hc : c ≠ sigil) (hw : word? σ.joined (c :: cs) = some (word, after))
    (hne : word ≠ asyncWord) (w : Keyword) (before : Nat) :
    ⟨front, σ.done.attempts⟩ ++ (Outline.read k joined (held ++ c :: cs)).scan w before =
      (σ.copyWord word).done ++
        (Outline.read .start true after).scan w (before + held.length + word.length) :=
  h.scan_copy (fun _ => plain?_eq_none_of_word? hc hw)
    (by rw [hk, read_word hc hw hne, Outline.scan_spelled]) _ _

section Steps
variable {c d : Char} {cs : List Char} (h : Holds σ k joined front held)
  (hs : ¬(σ.context.isCode && c = sigil) = true) (w : Keyword) (before : Nat)
include h hs

theorem scan_narrow (hw : (if σ.context.isCode then word? σ.joined (c :: cs) else none) = none)
    (hn : ∀ d ∈ cs.head?, (σ.context.step c (some d)).2 = false)
    (hc : cs = [] ∨ σ.pendingAfter c = none) :
    ⟨front, σ.done.attempts⟩ ++ (Outline.read k joined (held ++ c :: cs)).scan w before =
      (σ.copyStep c [c] (σ.context.step c cs.head?).1).done ++
        (Outline.read (σ.context.step c cs.head?).1 (Identifier.isContinue c) cs).scan w
          (before + held.length + 1) :=
  h.scan_copy (h.plain?_eq_none hs hc)
    (by rw [Outline.read_narrow (read?_eq_none_of_word? hs hw) hs hn]; rfl) _ _

theorem scan_wide (hw : (if σ.context.isCode then word? σ.joined (c :: d :: cs) else none) = none)
    (hwide : (σ.context.step c (some d)).2 = true) (hc : σ.pendingAfter c = none) :
    ⟨front, σ.done.attempts⟩ ++ (Outline.read k joined (held ++ c :: d :: cs)).scan w before =
      (σ.copyStep c [c, d] (σ.context.step c (some d)).1).done ++
        (Outline.read (σ.context.step c (some d)).1 (Identifier.isContinue d) cs).scan w
          (before + held.length + 2) :=
  h.scan_copy (h.plain?_eq_none hs (.inr hc))
    (by rw [Outline.read_wide (read?_eq_none_of_word? hs hw) hs hwide]; rfl) _ _

end Steps

theorem scan_sigil (h : Holds σ k joined front held) (hk : σ.context = .start) {cs : List Char}
    (hr : Shorthand.read? cs = none) (w : Keyword) (before : Nat) :
    ⟨front, σ.done.attempts⟩ ++ (Outline.read k joined (held ++ sigil :: cs)).scan w before =
      (σ.copySigil (before + held.length)).done ++
        (Outline.read .start true cs).scan w (before + held.length + 1) := by
  have hnone : Opening.plain? (skipBlanks (sigil :: cs)) = none := by
    rw [skipBlanks_cons (by decide), Opening.plain?, if_pos rfl, hr]
    rfl
  rw [h.release fun _ => hnone, hk, Outline.read_sigil (Opening.read?_sigil_eq_none hr _), State.copySigil,
    append_assoc]
  rfl

theorem scan_emit (h : Holds σ k joined front held) (hk : σ.context = .start) {cs after : List Char}
    {s : Shorthand} (hr : Shorthand.read? cs = some (s, after)) (w : Keyword) {before place : Nat}
    (hp : place = before + held.length) :
    ⟨front, σ.done.attempts⟩ ++ (Outline.read k joined (held ++ sigil :: cs)).scan w before =
      (σ.emit w place s
        ((Outline.read .start false s.params).scan w (place + 1 + s.lead.length))
        ((Outline.read .start false s.body.text).scan w
          (place + 1 + s.lead.length + s.params.length + s.middle.length))).done ++
        (Outline.read .start (s.span.getLast?.any Identifier.isContinue) after).scan w
          (place + 1 + s.span.length) := by
  obtain ⟨rfl, hcut, gap, hopen, rfl, hgap⟩ := h.opening hk hr
  rw [Outline.read_of_opening hopen, hp]
  simp [State.emit, hcut, ← hgap, append_eq, Outline.scan, Outline.render, Outline.attempts, Opening.joins]

end Holds

/-- A scan puts out the rendering of the outline of what is ahead, with what it holds. -/
theorem run_eq (w : Keyword) {place : Nat} {σ : State} {cs : List Char} (hk : σ.context.Settled)
    {k : Context} {joined : Bool} {front held : List Char} {before : Nat}
    (h : Holds σ k joined front held) (hp : place = before + held.length) :
    run w place σ cs = ⟨front, σ.done.attempts⟩ ++ (Outline.read k joined (held ++ cs)).scan w before := by
  fun_induction run w place σ cs generalizing k joined front held before with
  | case1 place σ =>
    rw [h.release (fun _ => rfl), Outline.read_nil]
    simp [Outline.scan, Outline.render, Outline.attempts, append_eq]
  | case2 place σ c rest hs s after hr ihParams ihBody ihNext =>
    simp only [Bool.and_eq_true, decide_eq_true_eq] at hs
    obtain ⟨hcode, rfl⟩ := hs
    have hparams : run w _ .initial s.params = (Outline.read .start false s.params).scan w _ :=
      ihParams Context.start_settled (.free rfl) rfl
    have hbody : run w _ .initial s.body.text = (Outline.read .start false s.body.text).scan w _ :=
      ihBody Context.start_settled (.free rfl) rfl
    have hnext : run w _ (σ.emit w place s _ _) after = _ ++ (Outline.read σ.context _ after).scan w _ :=
      ihNext hk (.free rfl) rfl
    rw [hnext, hparams, hbody, h.scan_emit (hk hcode) hr w hp, hk hcode]
    rfl
  | case3 place σ c rest hs hr ih =>
    simp only [Bool.and_eq_true, decide_eq_true_eq] at hs
    obtain ⟨hcode, rfl⟩ := hs
    have hnext : run w _ (σ.copySigil place) rest = _ ++ (Outline.read σ.context true rest).scan w _ :=
      ih hk (.free rfl) rfl
    rw [hnext, h.scan_sigil (hk hcode) hr, hk hcode, ← hp]
  | case4 place σ c rest hs word after hw ih =>
    obtain ⟨hcode, hw⟩ := Option.ite_none_right_eq_some.mp hw
    have hc : c ≠ sigil := by simpa [hcode] using hs
    obtain ⟨happ, hlast⟩ := word?_append hw
    -- Only `async` is held; any other word releases what was held and is put out.
    by_cases hasync : word = asyncWord
    · subst hasync
      have hnext : run w _ (σ.copyWord asyncWord) after =
        _ ++ (Outline.read .start false (asyncWord ++ after)).scan w place := ih hk (.async (hk hcode)) rfl
      rw [hnext, h.release fun _ => plain?_eq_none_of_word? hc hw, ← hp, hk hcode, ← happ,
        (word?_spec hw).1]
      simp [State.copyWord, State.copy, append_eq]
    · have hjoined : (σ.copyWord word).joined = true := hlast
      have hnext : run w _ (σ.copyWord word) after = _ ++ (Outline.read σ.context _ after).scan w _ :=
        ih hk (.free (if_neg hasync)) rfl
      rw [hnext, hjoined, hk hcode, h.scan_word (hk hcode) hc hw hasync, hp]
      rfl
  | case5 place σ c hs hw =>
    rw [h.scan_narrow hs w before hw (by simp) (.inl rfl), Outline.read_nil]
    simp [Outline.scan, Outline.render, Outline.attempts, append_eq]
  | case6 place σ c hs d more hw hwide ih =>
    -- A pair is no blank, so nothing stays pending behind it.
    have hpending : σ.pendingAfter c = none := by
      by_contra hpending
      obtain ⟨⟨hcode, hblank⟩, -⟩ := pendingAfter_of_ne_none hpending
      simp [hk hcode, Context.step_start_of_isQuiet (isQuiet_of_isIdle (isIdle_of_isBlank hblank))] at hwide
    have hnext : run w _ (σ.copyStep c [c, d] _) more = _ ++ (Outline.read _ _ more).scan w _ :=
      ih (Context.step_settled hk c _) (.free hpending) rfl
    rw [hnext, h.scan_wide hs w before hw hwide hpending, hp]
    rfl
  | case7 place σ c hs d more hw hwide ih =>
    by_cases hpending : σ.pendingAfter c = none
    · have hnext : run w _ (σ.copyStep c [c] _) (d :: more) = _ ++ (Outline.read _ _ (d :: more)).scan w _ :=
        ih (Context.step_settled hk c _) (.free hpending) rfl
      rw [hnext, h.scan_narrow hs w before hw (by simpa using hwide) (.inr hpending), hp]
      rfl
    · -- A blank behind the word `async`: what is held grows by it.
      obtain ⟨⟨hcode, hblank⟩, -⟩ := pendingAfter_of_ne_none hpending
      have hstep : σ.context.step c (some d) = (.start, false) := by
        rw [hk hcode, Context.step_start_of_isQuiet (isQuiet_of_isIdle (isIdle_of_isBlank hblank))]
      rw [hstep] at ih ⊢
      have hnext : run w _ (σ.copyStep c [c] .start) (d :: more) =
        _ ++ (Outline.read k joined (held ++ [c] ++ d :: more)).scan w before :=
          ih Context.start_settled (h.blank hpending) (by simp [hp, Nat.add_assoc])
      rw [hnext]
      simp [State.copyStep, State.copy, append_eq]

end Scan

/-! ## What is tried -/

namespace Outline

/-- The sigils that are tried are those that the scans meet in code. -/
theorem map_place_attempts (o : Outline) (place : Nat) (k : Context) :
    (o.attempts place).map Attempt.place =
      ((o.sigilTests place k).filter SigilTest.tried).map SigilTest.place := by
  induction o generalizing place k with
  | done => rfl
  | text cs rest ih =>
    rw [attempts, sigilTests, ih _ (k.run cs), List.filter_append, List.map_append]
    split <;> rfl
  | leftover rest ih =>
    rw [attempts, sigilTests, List.map_cons, ih _ k]
    rfl
  | shorthand gap s params body rest ihParams ihBody ihRest =>
    simp [attempts, sigilTests, ihParams _ .start, ihBody _ .start, ihRest _ k]

theorem codeAt_of_mem_attempts {cs : List Char} {a : Attempt} (h : a ∈ (ofText cs).attempts 0) :
    Scan.CodeAt cs a.place := by
  have hplace : a.place ∈ ((ofText cs).attempts 0).map Attempt.place := List.mem_map_of_mem h
  rw [map_place_attempts _ _ .start] at hplace
  obtain ⟨t, ht, hplace⟩ := List.mem_map.mp hplace
  obtain ⟨ht, htried⟩ := List.mem_filter.mp ht
  obtain ⟨s, n, hn, hs, -, hbefore, hagree⟩ := sigilTests_read Context.start_settled false cs 0 t ht
  rw [Nat.zero_add, hplace] at hn
  exact ⟨s, hn ▸ hs, by rw [hbefore, ← hagree, htried]⟩

theorem attempts_eq_nil {o : Outline} (h : sigil ∉ o.source) (place : Nat) : o.attempts place = [] := by
  have hplaces := o.map_place_attempts place .start
  have hnone : o.sigilTests place .start = [] :=
    List.eq_nil_iff_forall_not_mem.mpr fun t ht => h (sigil_mem_of_sigilTests ht)
  rw [hnone] at hplaces
  exact List.map_eq_nil_iff.mp hplaces

theorem place_of_mem_attempts {k : Context} {joined : Bool} {cs : List Char} {place : Nat} {a : Attempt}
    (h : a ∈ (read k joined cs).attempts place) : place ≤ a.place ∧ a.place < place + cs.length := by
  induction k, joined, cs using read_induction generalizing place with
  | nil => simp [read_nil, attempts] at h
  | opening k joined cs o hcode ho ihParams ihBody ihRest =>
    have happ := congrArg List.length (Opening.read?_append ho)
    simp only [Shorthand.span, List.length_append, List.length_cons] at happ
    simp only [read_of_some hcode ho, attempts, List.mem_cons, List.mem_append] at h
    rcases h with rfl | (h | h) | h
    · dsimp only
      omega
    · have hplace := ihParams h
      omega
    · have hplace := ihBody h
      omega
    · have hplace := ihRest h
      simp only [Shorthand.span, List.length_append] at hplace
      omega
  | leftover k joined cs hcode hread ih =>
    rw [hread] at h
    rcases List.mem_cons.mp h with rfl | h
    · simp
    · have hplace := ih h
      simp only [List.length_cons]
      omega
  | step k joined c cs hs hread ih =>
    rw [hread] at h
    have hplace := ih h
    rw [← firstStep_append k c cs, List.length_append]
    omega

theorem pairwise_attempts (k : Context) (joined : Bool) (cs : List Char) (place : Nat) :
    ((read k joined cs).attempts place).Pairwise fun a b => a.place < b.place := by
  induction k, joined, cs using read_induction generalizing place with
  | nil =>
    rw [read_nil]
    exact .nil
  | opening k joined cs o hcode ho ihParams ihBody ihRest =>
    simp only [read_of_some hcode ho, attempts, List.pairwise_cons, List.pairwise_append, List.mem_append]
    refine ⟨?_, ⟨ihParams _, ihBody _, ?_⟩, ihRest _, ?_⟩
    · rintro a ((ha | ha) | ha) <;> have hplace := place_of_mem_attempts ha <;> omega
    · intro a ha b hb
      have hfirst := place_of_mem_attempts ha
      have hsecond := place_of_mem_attempts hb
      omega
    · have hspan : o.shorthand.span.length = o.shorthand.lead.length + o.shorthand.params.length +
          o.shorthand.middle.length + o.shorthand.body.text.length + o.shorthand.close.length := by
        simp only [Shorthand.span, List.length_append]
      rintro a (ha | ha) b hb
      all_goals
        have hfirst := place_of_mem_attempts ha
        have hsecond := place_of_mem_attempts hb
        omega
  | leftover k joined cs hcode hread ih =>
    rw [hread]
    exact List.pairwise_cons.mpr ⟨fun a ha => (place_of_mem_attempts ha).1, ih _⟩
  | step k joined c cs hs hread ih =>
    rw [hread]
    exact ih _

end Outline

/-- The scan of a text puts out its expansion, and it tries the sigils of its outline. -/
theorem Scan.ofText_eq (w : Keyword) (cs : List Char) :
    ofText w cs = ⟨expand w cs, (Outline.ofText cs).attempts 0⟩ := by
  unfold ofText expand
  split
  · exact run_eq w Context.start_settled (.free rfl) rfl
  · rename_i hs
    rw [Outline.attempts_eq_nil (by rwa [Outline.source_ofText])]

example : (Scan.ofText .let_ "async ƒ f(a) async ƒ".toList).output = "let f = async (a) => async ƒ;".toList := by
  decide +kernel

end Florin
