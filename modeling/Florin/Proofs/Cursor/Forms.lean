import Florin.Proofs.Cursor.Scanners
import Florin.Proofs.Span

/-! # Shorthands by index

What is read of a shorthand from an index on is what is read from the text behind the index, and the
index behind it is that of the text which is left.
-/
namespace Florin.Cursor
open Text Lexical

/-- The index in a text behind which the rest is left. -/
def Leaves (text rest : List Char) (i : Nat) : Prop := ∃ front, text = front ++ rest ∧ i = front.length

theorem Leaves.refl (front cs : List Char) : Leaves (front ++ cs) cs front.length := ⟨front, rfl, rfl⟩

theorem getElem?_front (front cs : List Char) : (front ++ cs)[front.length]? = cs.head? := by
  rw [List.getElem?_append_right (Nat.le_refl _), Nat.sub_self, List.head?_eq_getElem?]

theorem skipBlanks_eq {text cs : List Char} {i : Nat} (h : Leaves text cs i) :
    ∃ j, skipWhile isBlank text i = .ok j ∧ Leaves text (skipBlanks cs) j := by
  obtain ⟨front, rfl, rfl⟩ := h
  refine ⟨_, skipWhile_eq front isBlank cs, front ++ cs.takeWhile isBlank, ?_, by simp⟩
  rw [List.append_assoc, skipBlanks, List.takeWhile_append_dropWhile]

theorem skipBlanks_behind (front mid cs : List Char) :
    ∃ j, skipWhile isBlank (front ++ (mid ++ cs)) (front.length + mid.length) = .ok j ∧
      Leaves (front ++ (mid ++ cs)) (skipBlanks cs) j :=
  skipBlanks_eq ⟨front ++ mid, by simp, by simp⟩

section Readers
variable {text cs : List Char} {i : Nat} (h : Leaves text cs i)
include h

theorem starAt_eq : ∃ j, starAt text i = .ok ((Shorthand.readStar cs).1, j) ∧
    Leaves text (Shorthand.readStar cs).2 j := by
  obtain ⟨star, hstar, hleaves⟩ := skipBlanks_eq h
  have hhead : text[star]? = (skipBlanks cs).head? := by
    obtain ⟨front, rfl, rfl⟩ := hleaves
    exact getElem?_front front _
  rw [starAt, hstar, ok_bind, hhead]
  by_cases hc : (skipBlanks cs).head? = some '*'
  · obtain ⟨rest, hrest⟩ := List.head?_eq_some_iff.mp hc
    have hread : Shorthand.readStar cs = (true, skipBlanks rest) := by rw [Shorthand.readStar, hrest]; rfl
    obtain ⟨front, rfl, rfl⟩ := hleaves
    obtain ⟨j, hj, hleaves⟩ := skipBlanks_behind front ['*'] rest
    rw [List.singleton_append, List.length_singleton] at hj
    rw [hrest, List.head?_cons, if_pos rfl, hj, hread]
    exact ⟨j, rfl, hleaves⟩
  · have hread : Shorthand.readStar cs = (false, skipBlanks cs) := by
      unfold Shorthand.readStar
      split
      · rename_i hrest
        exact absurd (congrArg List.head? hrest) hc
      · rfl
    rw [if_neg hc, hread]
    exact ⟨star, rfl, hleaves⟩

theorem nameAt_eq : ∃ j, nameAt text i = .ok ((Shorthand.readName cs).1, j) ∧
    Leaves text (Shorthand.readName cs).2 j := by
  obtain ⟨front, rfl, rfl⟩ := h
  rw [nameAt, getElem?_front]
  by_cases hstart : cs.head?.any Identifier.isStart = true
  · obtain ⟨c, more, rfl⟩ : ∃ c more, cs = c :: more := by
      cases cs with
      | nil => simp at hstart
      | cons c more => exact ⟨c, more, rfl⟩
    have hread : Identifier.read? (c :: more) = some (c :: more.takeWhile Identifier.isContinue,
        more.dropWhile Identifier.isContinue) := if_pos hstart
    have happ := Identifier.append_of_read? hread
    have hlast := skipWhile_eq (front ++ [c]) Identifier.isContinue more
    have hname := slice_eq front (c :: more.takeWhile Identifier.isContinue)
      (more.dropWhile Identifier.isContinue)
    obtain ⟨i, hi, hleaves⟩ := skipBlanks_behind front (c :: more.takeWhile Identifier.isContinue)
      (more.dropWhile Identifier.isContinue)
    have hlength : front.length + (c :: more.takeWhile Identifier.isContinue).length =
        front.length + 1 + (more.takeWhile Identifier.isContinue).length := by
      rw [List.length_cons]
      omega
    rw [List.append_assoc, List.singleton_append, List.length_append, List.length_singleton] at hlast
    rw [happ, hlength] at hname hi
    rw [happ] at hleaves
    rw [if_pos hstart, hlast, ok_bind, hname, ok_bind, hi, Shorthand.readName, hread]
    exact ⟨i, rfl, hleaves⟩
  · have hread : Identifier.read? cs = none := by
      cases cs with
      | nil => rfl
      | cons c more => exact if_neg hstart
    rw [if_neg hstart, Shorthand.readName, hread]
    exact ⟨_, rfl, .refl front cs⟩

theorem paramsAt?_eq : match Shorthand.readParams? cs with
    | none => paramsAt? text i = .ok none
    | some p => ∃ j, paramsAt? text i = .ok (some (p.text, j)) ∧ Leaves text p.rest j := by
  obtain ⟨front, rfl, rfl⟩ := h
  rw [paramsAt?, getElem?_front]
  by_cases hc : cs.head? = some '('
  · obtain ⟨inside, rfl⟩ := List.head?_eq_some_iff.mp hc
    have henclosed := enclosed?_eq .paren front inside
    change enclosed? .paren (front ++ '(' :: inside) _ _ _ _ = _ at henclosed
    rw [if_pos hc, henclosed, ok_bind, Shorthand.readParams?]
    cases hinner : Bracket.paren.enclosed? inside with
    | none => rfl
    | some r =>
      obtain ⟨inner, after⟩ := r
      obtain ⟨i, hi, hleaves⟩ := skipBlanks_behind front ('(' :: inner ++ [')']) after
      have hcs : '(' :: inner ++ [')'] ++ after = '(' :: inside := by
        rw [Bracket.enclosed?_append hinner]
        simp [Bracket.closer]
      have hlength : front.length + ('(' :: inner ++ [')']).length = front.length + 1 + inner.length + 1 := by
        simp only [List.length_append, List.length_cons, List.length_nil]
        omega
      rw [hcs] at hi hleaves
      rw [hlength] at hi
      simp only [Option.map_some, hi]
      exact ⟨i, rfl, hleaves⟩
  · have hread : Shorthand.readParams? cs = some ⟨cs, [], cs⟩ := by
      unfold Shorthand.readParams?
      split
      · exact absurd rfl hc
      · rfl
    rw [if_neg hc, hread]
    exact ⟨_, rfl, .refl front cs⟩

theorem bodyAt?_eq (generator : Bool) : match Shorthand.readBody? generator cs with
    | none => bodyAt? generator text i = .ok none
    | some (body, p) => ∃ j, bodyAt? generator text i = .ok (some (body, j)) ∧ Leaves text p.rest j := by
  obtain ⟨front, rfl, rfl⟩ := h
  rw [bodyAt?, getElem?_front]
  by_cases hc : cs.head? = some '{'
  · obtain ⟨inside, rfl⟩ := List.head?_eq_some_iff.mp hc
    have henclosed := enclosed?_eq .curly front inside
    change enclosed? .curly (front ++ '{' :: inside) _ _ _ _ = _ at henclosed
    rw [if_pos hc, henclosed, ok_bind, Shorthand.readBody?]
    cases hinner : Bracket.curly.enclosed? inside with
    | none => rfl
    | some r =>
      obtain ⟨inner, after⟩ := r
      refine ⟨_, rfl, front ++ ('{' :: inner ++ ['}']), ?_, ?_⟩
      · rw [Bracket.enclosed?_append hinner]
        simp [Bracket.closer]
      · simp only [List.length_append, List.length_cons, List.length_nil]
        omega
  · have hread : Shorthand.readBody? generator cs =
        if generator || (expression cs).1.isEmpty then none
        else some (.expression (expression cs).1, ⟨cs, (expression cs).1, (expression cs).2⟩) := by
      unfold Shorthand.readBody?
      split
      · exact absurd rfl hc
      · rfl
    have hslice := slice_eq front (expression cs).1 (expression cs).2
    rw [expression_append] at hslice
    rw [if_neg hc, hread, expressionEnd_eq, ok_bind, hslice, ok_bind]
    cases generator with
    | true => rfl
    | false =>
      cases hempty : (expression cs).1.isEmpty with
      | true => rfl
      | false => exact ⟨_, rfl, front ++ (expression cs).1, by simp [expression_append], by simp⟩

end Readers

/-- The form at the index of a sigil is that of the shorthand behind the sigil. -/
theorem formAt?_eq (front cs : List Char) : formAt? (front ++ sigil :: cs) front.length =
    .ok ((Shorthand.read? cs).map fun r =>
      ⟨r.1.generator, r.1.name, r.1.params, r.1.body, front.length + 1 + r.1.span.length⟩) := by
  have hstart : Leaves (front ++ sigil :: cs) cs (front.length + 1) := ⟨front ++ [sigil], by simp, by simp⟩
  obtain ⟨afterStar, hstar, hleaves⟩ := starAt_eq hstart
  obtain ⟨afterName, hname, hleaves⟩ := nameAt_eq hleaves
  have hparams := paramsAt?_eq hleaves
  simp only [formAt?, hstar, hname, ok_bind]
  cases hp : Shorthand.readParams? (Shorthand.readName (Shorthand.readStar cs).2).2 with
  | none =>
    have hread : Shorthand.read? cs = none := by simp [Shorthand.read?, hp]
    rw [hp] at hparams
    simp [hparams, hread]
  | some p =>
    rw [hp] at hparams
    obtain ⟨afterParams, hparams, hleaves⟩ := hparams
    have hbody := bodyAt?_eq hleaves (Shorthand.readStar cs).1
    simp only [hparams, ok_bind]
    cases hb : Shorthand.readBody? (Shorthand.readStar cs).1 p.rest with
    | none =>
      have hread : Shorthand.read? cs = none := by simp [Shorthand.read?, hp, hb]
      rw [hb] at hbody
      simp [hbody, hread]
    | some r =>
      obtain ⟨body, inside⟩ := r
      rw [hb] at hbody
      obtain ⟨stop, hbody, last, htext, rfl⟩ := hbody
      obtain ⟨s, hread, hform⟩ : ∃ s, Shorthand.read? cs = some (s, inside.rest) ∧ (s.generator, s.name, s.params,
          s.body) = ((Shorthand.readStar cs).1, (Shorthand.readName (Shorthand.readStar cs).2).1, p.text, body) :=
        ⟨_, by simp only [Shorthand.read?, hp, Option.bind_some, hb, Option.map_some]; rfl, rfl⟩
      -- Both read to the same place, since what is left of the text is the same.
      have hstop := congrArg List.length htext
      rw [← Shorthand.read?_append hread] at hstop
      simp only [List.length_append, List.length_cons] at hstop
      simp only [Prod.mk.injEq] at hform
      simp only [hbody, ok_bind, hread, Option.map_some, hform, pure_eq]
      congr 3
      omega

end Florin.Cursor
