import Florin.Proofs.FileTree.Names

/-! # Replacing a word

What becomes of a text when every occurrence of a word is replaced. Two texts in a row are replaced one by one if
no occurrence lies across the seam. Two texts may come out the same, but only where one has the word and the other
has its replacement.
-/
namespace Florin.Text

/-- An end of the word is never a beginning of it, so that no two occurrences overlap. -/
def Unbordered (word : List Char) : Prop := ∀ k < word.length, 0 < k → ¬word.drop k <+: word

instance (word : List Char) : Decidable (Unbordered word) :=
  inferInstanceAs (Decidable (∀ k < word.length, 0 < k → ¬word.drop k <+: word))

/-- No occurrence of the word starts in the first text and ends in the second one. -/
def Parted (word xs ys : List Char) : Prop :=
  ∀ front back, word = front ++ back → front ≠ [] → back ≠ [] → front <:+ xs → ¬back <+: ys

section Parted
variable {word xs ys : List Char}

theorem Parted.suffix (h : Parted word xs ys) {zs : List Char} (hz : zs <:+ xs) : Parted word zs ys :=
  fun front back hword hf hb hfront => h front back hword hf hb (hfront.trans hz)

theorem Unbordered.parted (h : Unbordered word) (xs : List Char) : Parted word xs word := by
  rintro front back rfl hf hb - hback
  have hlength := List.length_pos_iff.mpr hf
  have hrest := List.length_pos_iff.mpr hb
  refine h front.length (by rw [List.length_append]; omega) hlength ?_
  rwa [List.drop_left]

theorem parted_of_head {sep : Char} (hsep : sep ∉ word) (xs : List Char) (hys : ∀ c ∈ ys.head?, c = sep) :
    Parted word xs ys := by
  rintro front back rfl - hb - hback
  obtain ⟨c, back, rfl⟩ := List.exists_cons_of_ne_nil hb
  obtain ⟨more, rfl⟩ := hback
  obtain rfl := hys c rfl
  exact hsep (by simp)

end Parted

section Replacing
variable {word replacement : List Char}

theorem replaceAll_nil : replaceAll word replacement [] = [] := by rw [replaceAll]

theorem replaceAll_word (hw : word ≠ []) (cs : List Char) :
    replaceAll word replacement (word ++ cs) = replacement ++ replaceAll word replacement cs := by
  obtain ⟨c, more, rfl⟩ := List.exists_cons_of_ne_nil hw
  rw [List.cons_append, replaceAll, if_pos ⟨hw, by simp⟩, ← List.cons_append, List.drop_left]

theorem replaceAll_char {c : Char} {cs : List Char} (h : ¬word <+: c :: cs) :
    replaceAll word replacement (c :: cs) = c :: replaceAll word replacement cs := by
  rw [replaceAll, if_neg fun hword => h (List.isPrefixOf_iff_prefix.mp hword.2)]

/-- Induction along the rounds of a replacement. -/
@[elab_as_elim]
theorem replace_induction (hw : word ≠ []) {motive : List Char → Prop} (nil : motive [])
    (occurrence : ∀ cs, motive cs → motive (word ++ cs))
    (char : ∀ c cs, ¬word <+: c :: cs → motive cs → motive (c :: cs)) (cs : List Char) : motive cs := by
  induction h : cs.length using Nat.strongRecOn generalizing cs with
  | _ n ih =>
    by_cases hword : word <+: cs
    · obtain ⟨rest, rfl⟩ := hword
      have hpos := List.length_pos_iff.mpr hw
      rw [List.length_append] at h
      exact occurrence rest (ih _ (by omega) rest rfl)
    · cases cs with
      | nil => exact nil
      | cons c cs =>
        rw [List.length_cons] at h
        exact char c cs hword (ih _ (by omega) cs rfl)

/-! ## Texts in a row -/

theorem replaceAll_append (hw : word ≠ []) {xs ys : List Char} (h : Parted word xs ys) :
    replaceAll word replacement (xs ++ ys) =
      replaceAll word replacement xs ++ replaceAll word replacement ys := by
  induction xs using replace_induction hw with
  | nil => rw [replaceAll_nil, List.nil_append, List.nil_append]
  | occurrence xs ih =>
    rw [List.append_assoc, replaceAll_word hw, replaceAll_word hw, ih (h.suffix (List.suffix_append _ _)),
      List.append_assoc]
  | char c xs hword ih =>
    have hseam : ¬word <+: c :: (xs ++ ys) := by
      rintro ⟨rest, hrest⟩
      rcases List.append_eq_append_iff.mp (hrest.trans (List.cons_append ..).symm) with
        ⟨back, hfront, -⟩ | ⟨back, hfront, hback⟩
      · exact hword ⟨back, hfront.symm⟩
      · by_cases hb : back = []
        · rw [hb, List.append_nil] at hfront
          exact hword ⟨[], by rw [hfront, List.append_nil]⟩
        · exact h (c :: xs) back hfront (List.cons_ne_nil c xs) hb (List.suffix_refl _) ⟨rest, hback.symm⟩
    rw [List.cons_append, replaceAll_char hseam, replaceAll_char hword, ih (h.suffix (List.suffix_cons c xs)),
      List.cons_append]

theorem replaceAll_self (hw : word ≠ []) : replaceAll word replacement word = replacement := by
  have hself : replaceAll word replacement (word ++ []) = replacement ++ replaceAll word replacement [] :=
    replaceAll_word hw []
  rwa [List.append_nil, replaceAll_nil, List.append_nil] at hself

theorem replaceAll_append_cons (hw : word ≠ []) {sep : Char} (hsep : sep ∉ word) (xs ys : List Char) :
    replaceAll word replacement (xs ++ sep :: ys) =
      replaceAll word replacement xs ++ sep :: replaceAll word replacement ys := by
  have hhead : ¬word <+: sep :: ys := by
    rintro ⟨rest, hrest⟩
    obtain ⟨c, more, rfl⟩ := List.exists_cons_of_ne_nil hw
    obtain rfl := (List.cons.inj hrest).1
    exact hsep List.mem_cons_self
  rw [replaceAll_append hw (parted_of_head hsep xs (by simp)), replaceAll_char hhead]

theorem replaceAll_joinWith (hw : word ≠ []) {sep : Char} (hsep : sep ∉ word) (parts : List (List Char)) :
    replaceAll word replacement (joinWith sep parts) =
      joinWith sep (parts.map (replaceAll word replacement)) := by
  induction parts with
  | nil => exact replaceAll_nil
  | cons part parts ih =>
    by_cases hparts : parts = []
    · rw [hparts]
      rfl
    · rw [joinWith_cons sep part hparts, replaceAll_append_cons hw hsep, ih, List.map_cons,
        joinWith_cons sep _ (by simpa using hparts)]

theorem notMem_replaceAll (hw : word ≠ []) {c : Char} (hr : c ∉ replacement) {cs : List Char} (h : c ∉ cs) :
    c ∉ replaceAll word replacement cs := by
  induction cs using replace_induction hw with
  | nil => rwa [replaceAll_nil]
  | occurrence cs ih =>
    rw [List.mem_append, not_or] at h
    rw [replaceAll_word hw, List.mem_append, not_or]
    exact ⟨hr, ih h.2⟩
  | char d cs hword ih =>
    rw [List.mem_cons, not_or] at h
    rw [replaceAll_char hword, List.mem_cons, not_or]
    exact ⟨h.1, ih h.2⟩

theorem splitOn_replaceAll (hw : word ≠ []) {sep : Char} (hsep : sep ∉ word) (hr : sep ∉ replacement)
    (cs : List Char) : splitOn sep (replaceAll word replacement cs) =
      (splitOn sep cs).map (replaceAll word replacement) := by
  have hparts : ∀ part ∈ (splitOn sep cs).map (replaceAll word replacement), sep ∉ part := by
    intro part hpart
    obtain ⟨old, hold, rfl⟩ := List.mem_map.mp hpart
    exact notMem_replaceAll hw hr (notMem_of_mem_splitOn hold)
  calc splitOn sep (replaceAll word replacement cs)
      = splitOn sep (replaceAll word replacement (joinWith sep (splitOn sep cs))) := by rw [joinWith_splitOn]
    _ = (splitOn sep cs).map (replaceAll word replacement) := by
      rw [replaceAll_joinWith hw hsep, splitOn_joinWith (by simpa using splitOn_ne_nil sep cs) hparts]

/-! ## What stays the same -/

theorem replaceAll_eq_self {cs : List Char} (h : ¬word <:+: cs) : replaceAll word replacement cs = cs := by
  induction cs with
  | nil => exact replaceAll_nil
  | cons c cs ih =>
    rw [replaceAll_char fun hword => h hword.isInfix, ih fun hword => h (List.infix_cons hword)]

/-- Where there is the word, its replacement comes to stand. -/
theorem infix_replaceAll (hw : word ≠ []) {cs : List Char} (h : word <:+: cs) :
    replacement <:+: replaceAll word replacement cs := by
  induction cs using replace_induction hw with
  | nil => exact absurd (List.infix_nil.mp h) hw
  | occurrence cs ih =>
    rw [replaceAll_word hw]
    exact (List.prefix_append _ _).isInfix
  | char c cs hword ih =>
    rw [replaceAll_char hword]
    exact List.infix_cons (ih ((List.infix_cons_iff.mp h).resolve_left hword))

theorem length_lt_replaceAll (hw : word ≠ []) (hlt : word.length < replacement.length) {cs : List Char}
    (h : word <:+: cs) : cs.length < (replaceAll word replacement cs).length := by
  induction cs using replace_induction hw with
  | nil => exact absurd (List.infix_nil.mp h) hw
  | occurrence cs ih =>
    have hle : cs.length ≤ (replaceAll word replacement cs).length := by
      by_cases hcs : word <:+: cs
      · exact (ih hcs).le
      · rw [replaceAll_eq_self hcs]
    rw [replaceAll_word hw, List.length_append, List.length_append]
    omega
  | char c cs hword ih =>
    rw [replaceAll_char hword, List.length_cons, List.length_cons]
    have hcs := ih ((List.infix_cons_iff.mp h).resolve_left hword)
    omega

theorem replaceAll_eq_self_iff (hw : word ≠ []) (hlt : word.length < replacement.length) {cs : List Char} :
    replaceAll word replacement cs = cs ↔ ¬word <:+: cs := by
  refine ⟨fun hself h => ?_, replaceAll_eq_self⟩
  have hlength := length_lt_replaceAll hw hlt h
  rw [hself] at hlength
  exact lt_irrefl _ hlength

/-- A text that is shorter than the replacement comes out of itself only. -/
theorem replaceAll_eq_iff_of_short (hw : word ≠ []) {cs ds : List Char} (hword : ¬word <:+: ds)
    (hshort : ds.length < replacement.length) : replaceAll word replacement cs = ds ↔ cs = ds := by
  constructor
  · rintro h
    by_cases hcs : word <:+: cs
    · have hinfix : replacement <:+: replaceAll word replacement cs := infix_replaceAll hw hcs
      have hle := hinfix.length_le
      rw [h] at hle
      omega
    · rwa [replaceAll_eq_self hcs] at h
  · rintro rfl
    exact replaceAll_eq_self hword

theorem head?_replaceAll (hw : word ≠ []) (hhead : word.head? = replacement.head?) (cs : List Char) :
    (replaceAll word replacement cs).head? = cs.head? := by
  induction cs using replace_induction hw with
  | nil => rw [replaceAll_nil]
  | occurrence cs _ =>
    obtain ⟨c, more, hc⟩ := List.exists_cons_of_ne_nil hw
    rw [hc, List.head?_cons] at hhead
    obtain ⟨rest, hr⟩ := List.head?_eq_some_iff.mp hhead.symm
    rw [replaceAll_word hw, hr, hc]
    rfl
  | char c cs hword _ => rw [replaceAll_char hword, List.head?_cons, List.head?_cons]

/-! ## Texts that come out the same -/

/-- An end of the replacement that is not all of it stands at the front only if it did so before. -/
theorem prefix_of_prefix_replaceAll (hw : word ≠ []) (hr : Unbordered replacement) {part cs : List Char}
    (hpart : part <:+ replacement) (hne : part ≠ replacement)
    (h : part <+: replaceAll word replacement cs) : part <+: cs := by
  induction part generalizing cs with
  | nil => exact List.nil_prefix
  | cons c part ih =>
    by_cases hword : word <+: cs
    · obtain ⟨rest, rfl⟩ := hword
      obtain ⟨front, hfront⟩ := hpart
      have hpos : 0 < front.length := by
        rw [List.length_pos_iff]
        rintro rfl
        exact hne hfront
      rw [replaceAll_word hw] at h
      have hprefix := List.prefix_of_prefix_length_le h (List.prefix_append _ _)
        (by rw [← hfront, List.length_append]; omega)
      refine absurd ?_ (hr front.length (by rw [← hfront]; simp) hpos)
      rw [← hfront, List.drop_left, hfront]
      exact hprefix
    · cases cs with
      | nil => simp [replaceAll_nil] at h
      | cons d cs =>
        rw [replaceAll_char hword, List.cons_prefix_cons] at h
        obtain ⟨rfl, hrest⟩ := h
        have hsuffix := (List.suffix_cons c part).trans hpart
        refine (List.prefix_cons_inj c).mpr (ih hsuffix ?_ hrest)
        rintro rfl
        exact absurd hpart.length_le (by simp)

theorem prefix_or_prefix_of_replaceAll (hw : word ≠ []) (hr : Unbordered replacement) {cs : List Char}
    (h : replacement <+: replaceAll word replacement cs) : word <+: cs ∨ replacement <+: cs := by
  by_cases hword : word <+: cs
  · exact Or.inl hword
  refine Or.inr ?_
  cases replacement with
  | nil => exact List.nil_prefix
  | cons c part =>
    cases cs with
    | nil => simp [replaceAll_nil] at h
    | cons d cs =>
      rw [replaceAll_char hword, List.cons_prefix_cons] at h
      obtain ⟨rfl, hrest⟩ := h
      refine (List.prefix_cons_inj c).mpr (prefix_of_prefix_replaceAll hw hr (List.suffix_cons c part) ?_ hrest)
      exact fun heq => absurd (congrArg List.length heq) (by simp)

/-- One text has the word and the other one its replacement. -/
def Clash (word replacement xs ys : List Char) : Prop := word <:+: xs ∧ replacement <:+: ys

theorem Clash.mono {xs ys xs' ys' : List Char} (h : Clash word replacement xs ys) (hx : xs <:+: xs')
    (hy : ys <:+: ys') : Clash word replacement xs' ys' := ⟨h.1.trans hx, h.2.trans hy⟩

/-- Two texts that come out the same are the same, or one has the word where the other has its replacement. -/
theorem eq_or_clash_of_replaceAll_eq (hw : word ≠ []) (hne : replacement ≠ []) (hr : Unbordered replacement)
    {xs ys : List Char} (h : replaceAll word replacement xs = replaceAll word replacement ys) :
    xs = ys ∨ Clash word replacement xs ys ∨ Clash word replacement ys xs := by
  induction xs using replace_induction hw generalizing ys with
  | nil =>
    have hempty : replaceAll word replacement ys = [] := by rw [← h, replaceAll_nil]
    have hword : ¬word <:+: ([] : List Char) := by simpa using hw
    exact Or.inl ((replaceAll_eq_iff_of_short hw hword (List.length_pos_iff.mpr hne)).mp hempty).symm
  | occurrence xs ih =>
    rw [replaceAll_word hw] at h
    -- The replacement at the front of the other result comes from an occurrence, or it was there before.
    rcases prefix_or_prefix_of_replaceAll hw hr ⟨_, h⟩ with ⟨rest, rfl⟩ | hreplacement
    · rw [replaceAll_word hw] at h
      have hx := (List.suffix_append word xs).isInfix
      have hy := (List.suffix_append word rest).isInfix
      rcases ih (List.append_cancel_left h) with rfl | hclash | hclash
      · exact Or.inl rfl
      · exact Or.inr (Or.inl (hclash.mono hx hy))
      · exact Or.inr (Or.inr (hclash.mono hy hx))
    · exact Or.inr (Or.inl ⟨(List.prefix_append _ _).isInfix, hreplacement.isInfix⟩)
  | char c xs hword ih =>
    by_cases hword' : word <+: ys
    · obtain ⟨rest, rfl⟩ := hword'
      rw [replaceAll_word hw] at h
      have hx := (prefix_or_prefix_of_replaceAll hw hr ⟨_, h.symm⟩).resolve_left hword
      exact Or.inr (Or.inr ⟨(List.prefix_append _ _).isInfix, hx.isInfix⟩)
    · cases ys with
      | nil => simp [replaceAll_char hword, replaceAll_nil] at h
      | cons d ys =>
        rw [replaceAll_char hword, replaceAll_char hword', List.cons.injEq] at h
        obtain ⟨rfl, hrest⟩ := h
        have hx := (List.suffix_cons c xs).isInfix
        have hy := (List.suffix_cons c ys).isInfix
        rcases ih hrest with rfl | hclash | hclash
        · exact Or.inl rfl
        · exact Or.inr (Or.inl (hclash.mono hx hy))
        · exact Or.inr (Or.inr (hclash.mono hy hx))

end Replacing

end Florin.Text
