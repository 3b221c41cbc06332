import Florin.Proofs.LeftoverSites
import Florin.Proofs.Reading

/-! # Fixed points of the expansion

A text without a sigil in code is its own expansion: the scan that looks for shorthands and the plain
scan that looks for sites agree on what is code, so the first one meets nothing to expand. An
expansion without sites is therefore final, whatever keywords it is expanded with again.
-/
namespace Florin
open Text Lexical

theorem noSigil_of_leftoverSites {cs : List Char} (h : leftoverSites cs = []) : NoSigil .start cs := by
  rw [← List.length_eq_zero_iff, length_leftoverSites, codeSigils, List.countP_eq_zero] at h
  exact fun s hs => by simpa using h s hs

theorem leftoverSites_of_not_mem {cs : List Char} (h : sigil ∉ cs) : leftoverSites cs = [] := by
  rw [← List.length_eq_zero_iff, length_leftoverSites, codeSigils_eq_zero h]

theorem Opening.read?_eq_none_of_noSigil {k : Context} (hk : k.Settled) {c : Char} {cs : List Char}
    (h : NoSigil k (c :: cs)) (joined : Bool) :
    (if k.isCode then read? joined (c :: cs) else none) = none := by
  have hopen : (if k.isCode then read? joined (c :: (cs ++ [])) else none) = none :=
    read?_text_eq_none hk h (by simp [Detached]) (by simp)
  rwa [List.append_nil] at hopen

namespace Outline

/-- A text without a sigil in code is read as it is, be it closed or not. -/
theorem render_read_of_noSigil {k : Context} (hk : k.Settled) (joined : Bool) {cs : List Char}
    (h : NoSigil k cs) (w : Keyword) : (read k joined cs).render w = cs := by
  induction k, cs using step_induction generalizing joined with
  | nil => rw [read_nil, render]
  | cons k c cs ih =>
    have hopen := Opening.read?_eq_none_of_noSigil hk h joined
    rw [render_read_step hopen h.head, ih (Context.step_settled hk c _) _ h.behind, firstStep_append]

end Outline

theorem expand_eq_render (w : Keyword) (cs : List Char) : expand w cs = (Outline.ofText cs).render w := by
  unfold expand
  split
  · rfl
  · rename_i hs
    have hnone := noSigil_of_leftoverSites (leftoverSites_of_not_mem hs)
    exact (Outline.render_read_of_noSigil Context.start_settled false hnone w).symm

/-- Without a sigil in code, the full scan gives the text back, and so does the expansion. -/
theorem expandText_of_noSigil {source : String} (h : NoSigil .start source.toList) (w : Keyword) :
    expandText w source = source ∧ (Outline.ofText source.toList).render w = source.toList := by
  have hfull : (Outline.ofText source.toList).render w = source.toList :=
    Outline.render_read_of_noSigil Context.start_settled false h w
  exact ⟨by rw [expandText, expand_eq_render, hfull, String.ofList_toList], hfull⟩

/-- A text without sites is its own expansion, by the full scan too, and a text without any sigil has
no sites. Once an expansion has no sites, expanding it again with any keywords leaves it as it is. -/
theorem expandText_fixed :
    (∀ (source : String) (w : Keyword), leftoverSites source.toList = [] →
      expandText w source = source ∧ (Outline.ofText source.toList).render w = source.toList) ∧
    (∀ source : String, sigil ∉ source.toList → leftoverSites source.toList = []) ∧
    ∀ (source : String) (first : Keyword) (more : List Keyword),
      leftoverSites (expandText first source).toList = [] →
        more.foldl (fun text w => expandText w text) (expandText first source) =
          expandText first source := by
  refine ⟨fun source w h => expandText_of_noSigil (noSigil_of_leftoverSites h) w,
    fun source h => leftoverSites_of_not_mem h, fun source first more h => ?_⟩
  generalize expandText first source = text at h ⊢
  induction more with
  | nil => rfl
  | cons w more ih =>
    rw [List.foldl_cons, (expandText_of_noSigil (noSigil_of_leftoverSites h) w).1]
    exact ih

/-- Sigils in a literal, a comment and an interpolation, and a literal that stays open. -/
theorem expandText_fixed_of_literals :
    (expandText .let_ "a = 'ƒ' + `ƒ ${ƒ(x) x}` // ƒ\n + \"ƒ" = "a = 'ƒ' + `ƒ ${ƒ(x) x}` // ƒ\n + \"ƒ" ∧
      (Outline.ofText "a = 'ƒ' + `ƒ ${ƒ(x) x}` // ƒ\n + \"ƒ".toList).render .let_ =
        "a = 'ƒ' + `ƒ ${ƒ(x) x}` // ƒ\n + \"ƒ".toList) ∧
    leftoverSites "a /* b".toList = [] ∧
    [Keyword.let_, .const].foldl (fun text w => expandText w text) (expandText .var "ƒ f(a) ƒ(b) 'ƒ'") =
      expandText .var "ƒ f(a) ƒ(b) 'ƒ'" :=
  ⟨expandText_fixed.1 _ .let_ (by decide +kernel), expandText_fixed.2.1 _ (by decide +kernel),
    expandText_fixed.2.2 "ƒ f(a) ƒ(b) 'ƒ'" .var [.let_, .const] (by decide +kernel)⟩

end Florin
