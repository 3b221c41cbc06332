import Florin.Proofs.Program
import Florin.Proofs.Span

/-! # Printed programs are balanced

A printed program ends in code and closes every bracket that it opens. Where it is printed inside of
brackets or as a body, the scans of brackets and of expressions therefore find its end.
-/
namespace Florin
open Text Lexical

namespace Head

theorem print_head (h : Head) : ∃ more, h.print = (if h.isAsync then 'a' else sigil) :: more := by
  unfold print
  cases h.isAsync <;> exact ⟨_, rfl⟩

/-- What is printed before the parameters consists of words, spaces and a star. -/
theorem mem_print {h : Head} (hv : h.Valid) {c : Char} (hc : c ∈ h.print) :
    Identifier.isContinue c = true ∨ c = ' ' ∨ c = '*' := by
  simp only [print, List.mem_append, List.mem_cons] at hc
  rcases hc with hc | (rfl | hc) | hc
  · split at hc
    · exact (by decide : ∀ c ∈ "async ".toList, Identifier.isContinue c = true ∨ c = ' ' ∨ c = '*') c hc
    · simp at hc
  · exact Or.inl isContinue_sigil
  · cases hg : h.generator with
    | false => exact Or.inr (Or.inl (by simpa [hg] using hc))
    | true => exact Or.inr (Or.symm (by simpa [hg] using hc))
  · cases hn : h.name with
    | none => simp [hn] at hc
    | some name => exact Or.inl ((hv name hn).2 c (by simpa [hn] using hc))

theorem print_quiet {h : Head} (hv : h.Valid) : Quiet h.print := by
  intro c hc
  rcases mem_print hv hc with hc | rfl | rfl
  · exact isQuiet_of_isContinue hc
  · decide
  · decide

variable {σ : Type} {next : σ → Step → Option σ} {deep : σ → Prop}

theorem keeps_print {h : Head} (hv : h.Valid) (hb : Balancing next deep) (state : σ) :
    Keeps next state h.print := by
  have hlacks (chars : List Char) (hc : ∀ c ∈ chars, Identifier.isContinue c = false ∧ c ≠ ' ' ∧ c ≠ '*') :
      Lacks chars h.print := by
    refine lacks_of_not_mem fun c hm hp => ?_
    have hne := hc c hm
    rcases mem_print hv hp with hcont | hc | hc
    · simp [hcont] at hne
    · exact hne.2.1 hc
    · exact hne.2.2 hc
  exact hb.keeps_of_lacks (print_quiet hv).run (hlacks _ (by decide)) (Or.inr (hlacks _ (by decide)))

end Head

namespace Program

theorem apart_of_follows {cs : List Char} {p : Program} (h : p.Follows cs) : Apart cs p.print := by
  have hhead (head : Head) (more : List Char) : Apart cs (head.print ++ more) := by
    obtain ⟨back, hp⟩ := head.print_head
    rw [hp]
    exact apart_cons (by cases head.isAsync <;> decide) cs (back ++ more)
  cases p with
  | done => exact fun c d _ hd => by simp [print] at hd
  | text => exact h.elim
  | group b inner rest => exact b.apart_opener _ _
  | nullary head => exact hhead head _
  | block head => exact hhead head _
  | arrow isAsync name => exact hhead ⟨isAsync, false, name⟩ _

/-- A gap and the end of the expression before it, or the end of the list. -/
theorem exists_gap {body : List Char} {p : Program} (h : p.FollowsExpression body) {after : List Char}
    (hafter : Stops after) : ∃ gap more, p.print ++ after = gap ++ more ∧ IsGap gap ∧ Stops more ∧
      Apart body (p.print ++ after) := by
  cases p with
  | done => exact ⟨[], after, rfl, isGap_nil, hafter, hafter.apart body⟩
  | text cs rest =>
    obtain ⟨hslash, n, -, hgap, hstop⟩ := h
    have hmore : Stops (cs.drop n ++ (rest.print ++ after)) := by
      rcases hstop with hc | hc | ⟨hc, rfl⟩
      · obtain ⟨more, hm⟩ := List.head?_eq_some_iff.mp hc
        rw [hm]
        intro c hc
        obtain rfl := Option.some.inj hc
        decide
      · obtain ⟨more, hm⟩ := List.head?_eq_some_iff.mp hc
        rw [hm]
        intro c hc
        obtain rfl := Option.some.inj hc
        decide
      · rw [hc]
        exact hafter
    have hsplit : (text cs rest).print ++ after = cs.take n ++ (cs.drop n ++ (rest.print ++ after)) := by
      rw [print, ← List.append_assoc, List.take_append_drop, List.append_assoc]
    -- A slash at the head of the gap would make a comment with the body, which the text rules out.
    refine ⟨_, _, hsplit, hgap, hmore, ?_⟩
    rw [hsplit]
    intro c d hc hd hs
    cases hg : cs.take n with
    | nil => exact hmore.apart body c d hc (by simpa [hg] using hd) hs
    | cons e gap =>
      obtain rfl : e = d := by simpa [hg] using hd
      have hcs : cs.head? = some e := by
        rw [← List.take_append_drop n cs, hg]
        rfl
      have hne : e ≠ '/' := fun he => hslash ⟨hs ▸ hc, he ▸ hcs⟩
      refine ⟨hne, fun he => ?_⟩
      have hblank := hgap.head e (by rw [hg]; rfl)
      rw [he] at hblank
      exact absurd hblank (by decide)
  | group => exact h.elim
  | nullary => exact h.elim
  | block => exact h.elim
  | arrow => exact h.elim

/-- Both kinds of scans keep their state over a printed program. -/
theorem keeps_print {σ : Type} {next : σ → Step → Option σ} {deep : σ → Prop}
    (hb : Balancing next deep) {p : Program} (hp : p.Valid) {state : σ}
    (hs : deep state ∨ ∀ cs ∈ p.ownTexts, Lacks [',', ';'] cs) : Keeps next state p.print := by
  have hspace (state : σ) : Keeps next state [' '] :=
    hb.keeps_of_lacks rfl (by decide) (Or.inr (by decide))
  have happly {xs : List Char} {state : σ} (hx : Keeps next state xs) : Keeps next state (' ' :: xs) :=
    (hspace state).append hx (fun c d hc _ hs => by simp_all)
  induction p generalizing state with
  | done => exact ⟨rfl, rfl⟩
  | text cs rest ih =>
    obtain ⟨⟨hrun, hlacks⟩, hfollows, hrest⟩ := hp
    have hbrackets : Lacks Bracket.all cs := fun s hs c hc => hlacks s hs c (List.mem_cons_of_mem _ hc)
    have hcs := hb.keeps_of_lacks hrun hbrackets (hs.imp_right fun h => h cs List.mem_cons_self)
    exact hcs.append (ih hrest (hs.imp_right fun h x hx => h x (List.mem_cons_of_mem _ hx)))
      (apart_of_follows hfollows)
  | group b inner rest ihInner ihRest =>
    exact (hb.keeps_around state b fun _ hd => ihInner hp.1 (Or.inl hd)).append (ihRest hp.2 hs)
      (b.apart_around _ _)
  | nullary head body rest ihBody ihRest =>
    obtain ⟨hhead, hbody, hrest⟩ := hp
    have hblock := hb.keeps_around state .curly fun _ hd => ihBody hbody (Or.inl hd)
    exact (Head.keeps_print hhead hb state).append
      (happly (hblock.append (ihRest hrest hs) (Bracket.apart_around _ _ _)))
      ((Head.print_quiet hhead).apart _)
  | block head params body rest ihParams ihBody ihRest =>
    obtain ⟨hhead, hparams, hbody, hrest⟩ := hp
    have hinner := hb.keeps_around state .paren fun _ hd => ihParams hparams (Or.inl hd)
    have hblock := hb.keeps_around state .curly fun _ hd => ihBody hbody (Or.inl hd)
    exact (Head.keeps_print hhead hb state).append
      (hinner.append (happly (hblock.append (ihRest hrest hs) (Bracket.apart_around _ _ _)))
        (Bracket.apart_around _ _ _))
      ((Head.print_quiet hhead).apart _)
  | arrow isAsync name params body rest ihParams ihBody ihRest =>
    obtain ⟨hhead, hparams, hbody, hexpr, hfollows, hrest⟩ := hp
    obtain ⟨-, -, -, -, -, hapart⟩ := exists_gap hfollows stops_nil
    rw [List.append_nil] at hapart
    have hinner := hb.keeps_around state .paren fun _ hd => ihParams hparams (Or.inl hd)
    exact (Head.keeps_print hhead hb state).append
      (hinner.append (happly ((ihBody hbody (Or.inr hexpr.texts)).append (ihRest hrest hs) hapart))
        (Bracket.apart_around _ _ _))
      ((Head.print_quiet hhead).apart _)

theorem closed_print {p : Program} (hp : p.Valid) (b : Bracket) : b.Closed p.print :=
  Bracket.closed_iff_keeps.mpr (keeps_print b.balancing hp (Or.inl trivial))

theorem enclosed?_print {p : Program} (hp : p.Valid) (b : Bracket) (after : List Char) :
    b.enclosed? (p.print ++ b.closer :: after) = some (p.print, after) :=
  Bracket.enclosed?_eq_some_iff.mpr ⟨rfl, closed_print hp b⟩

theorem expression_print {body rest : Program} (hbody : body.Valid) (hexpr : body.IsExpression)
    (hrest : rest.FollowsExpression body.print) {after : List Char} (hafter : Stops after) :
    expression (body.print ++ (rest.print ++ after)) = (body.print, rest.print ++ after) := by
  obtain ⟨gap, more, hsplit, hgap, hmore, hapart⟩ := exists_gap hrest hafter
  rw [hsplit] at hapart ⊢
  exact expression_of_keeps (keeps_print Nesting.balancing hbody (Or.inr hexpr.texts)) hexpr.last hgap
    hmore hapart

end Program

end Florin
