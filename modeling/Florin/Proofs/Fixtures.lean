import Florin.Fixture
import Florin.Proofs.FileTree.Resolving
import Florin.Proofs.Replacing
import Mathlib

/-! # Fixtures and their expected files

The expected file of a fixture is named by replacing the input suffix in all of its path. Part by part, this leaves
the shape of the path as it is: it does what the replacement does to the path of the directory and to the file
name. So the expected file lies beside the input and has the input's stem unless the suffix occurs
once more in the path, and only then can two inputs have one expected file.
-/
namespace Florin
open Text

namespace Fixture

/-- A text with the input suffix replaced by the expected one, wherever it occurs. -/
def swap (cs : List Char) : List Char := replaceAll inputSuffix expectedSuffix cs

theorem expectedPath_text (p : Path) : (expectedPath p).text = swap p.text := rfl

theorem inputSuffix_ne_nil : inputSuffix ≠ [] := by decide

theorem unbordered_inputSuffix : Unbordered inputSuffix := by decide

theorem unbordered_expectedSuffix : Unbordered expectedSuffix := by decide

theorem slash_notMem_inputSuffix : '/' ∉ inputSuffix := by decide

theorem slash_notMem_expectedSuffix : '/' ∉ expectedSuffix := by decide

theorem swap_eq_self_iff {cs : List Char} : swap cs = cs ↔ ¬inputSuffix <:+: cs :=
  replaceAll_eq_self_iff inputSuffix_ne_nil (by decide)

theorem swap_append_inputSuffix (stem : Name) : swap (stem ++ inputSuffix) = swap stem ++ expectedSuffix := by
  rw [swap, replaceAll_append inputSuffix_ne_nil (unbordered_inputSuffix.parted stem),
    replaceAll_self inputSuffix_ne_nil]
  rfl

theorem swap_eq_dot_iff {n : Name} : swap n = Path.dot ↔ n = Path.dot :=
  replaceAll_eq_iff_of_short inputSuffix_ne_nil (by decide) (by decide)

theorem swap_eq_dots_iff {n : Name} : swap n = Path.dots ↔ n = Path.dots :=
  replaceAll_eq_iff_of_short inputSuffix_ne_nil (by decide) (by decide)

theorem swap_eq_nil_iff {n : Name} : swap n = [] ↔ n = [] :=
  replaceAll_eq_iff_of_short inputSuffix_ne_nil (by decide) (by decide)

theorem isSilent_swap (n : Name) : Path.isSilent (swap n) = Path.isSilent n := by
  rw [Bool.eq_iff_iff]
  simp [Path.isSilent, swap_eq_dot_iff, swap_eq_nil_iff]

theorem splitOn_swap (cs : List Char) : splitOn '/' (swap cs) = (splitOn '/' cs).map swap :=
  splitOn_replaceAll inputSuffix_ne_nil slash_notMem_inputSuffix slash_notMem_expectedSuffix cs

theorem swap_joinWith (parts : List Name) : swap (joinWith '/' parts) = joinWith '/' (parts.map swap) :=
  replaceAll_joinWith inputSuffix_ne_nil slash_notMem_inputSuffix parts

theorem eq_or_clash_of_swap_eq {xs ys : List Char} (h : swap xs = swap ys) : xs = ys ∨
    Clash inputSuffix expectedSuffix xs ys ∨ Clash inputSuffix expectedSuffix ys xs :=
  eq_or_clash_of_replaceAll_eq inputSuffix_ne_nil (by decide) unbordered_expectedSuffix h

/-! ## The shape of a path -/

theorem isAbsolute_expectedPath (p : Path) : (expectedPath p).isAbsolute = p.isAbsolute := by
  rw [Path.isAbsolute, expectedPath_text, swap, head?_replaceAll inputSuffix_ne_nil (by decide)]
  rfl

theorem lead_expectedPath (p : Path) : (expectedPath p).lead = p.lead := by
  have hhead : ((splitOn '/' p.text).map swap).head? = some Path.dot ↔ (splitOn '/' p.text).head? = some Path.dot := by
    cases splitOn '/' p.text with
    | nil => simp
    | cons part parts => simp [swap_eq_dot_iff]
  rw [Path.lead, Path.lead, isAbsolute_expectedPath, expectedPath_text, splitOn_swap]
  simp only [hhead]

theorem head_joinWith_of_dot {p : Path} (hdot : p.lead = Path.dot) {up : List Name} (h : up <+: p.parts) :
    ∀ c ∈ (joinWith '/' up).head?, c = '/' := by
  intro c hc
  obtain ⟨more, hmore⟩ := List.head?_eq_some_iff.mp hc
  obtain ⟨rest, hrest⟩ : c :: more <+: joinWith '/' p.parts := hmore ▸ joinWith_isPrefix h
  have htext := p.text_eq
  rw [hdot, ← hrest] at htext
  rcases p.exists_lead with ⟨hlead, -⟩ | ⟨cs, hlead, -⟩ | ⟨-, hall | ⟨cs, hall⟩⟩
  · exact absurd (hdot.symm.trans hlead) (by decide)
  · exact absurd (hdot.symm.trans hlead) (by decide)
  · rw [hall] at htext
    simp at htext
  · rw [hall] at htext
    exact (List.cons.inj (List.append_cancel_left htext)).1.symm

theorem expectedPath_ofParts {p : Path} {up : List Name} (h : up <+: p.parts) :
    expectedPath (Path.ofParts p.lead up) = Path.ofParts p.lead (up.map swap) := by
  suffices htext : swap (p.lead ++ joinWith '/' up) = p.lead ++ swap (joinWith '/' up) by
    rw [swap_joinWith] at htext
    exact congrArg Path.mk htext
  rcases p.exists_lead with ⟨hlead, -⟩ | ⟨cs, hlead, -⟩ | ⟨hlead, -⟩
  · rw [hlead, List.nil_append, List.nil_append]
  · have hslash : swap ([] ++ '/' :: joinWith '/' up) = swap [] ++ '/' :: swap (joinWith '/' up) :=
      replaceAll_append_cons inputSuffix_ne_nil slash_notMem_inputSuffix [] (joinWith '/' up)
    rw [swap_eq_nil_iff.mpr rfl] at hslash
    rw [hlead]
    exact hslash
  · have hhead := head_joinWith_of_dot hlead h
    rw [hlead, swap, replaceAll_append inputSuffix_ne_nil (parted_of_head slash_notMem_inputSuffix _ hhead)]
    exact congrArg (· ++ _) (swap_eq_dot_iff.mpr rfl)

theorem parts_expectedPath (p : Path) : (expectedPath p).parts = p.parts.map swap := by
  have htext : (expectedPath p).text = p.lead ++ joinWith '/' (p.parts.map swap) := by
    have hall := congrArg Path.text (expectedPath_ofParts (List.prefix_refl p.parts))
    rw [Path.ofParts, ← Path.text_eq] at hall
    exact hall
  rw [Path.parts, lead_expectedPath, htext, List.drop_left, ← swap_joinWith, splitOn_swap, Path.parts,
    joinWith_splitOn]

theorem spoken_expectedPath (p : Path) : (expectedPath p).spoken = p.spoken.map swap := by
  rw [← Path.filter_parts, ← Path.filter_parts, parts_expectedPath, List.filter_map]
  refine congrArg _ (List.filter_congr fun part _ => ?_)
  rw [Function.comp_apply, isSilent_swap]

theorem fileName?_expectedPath (p : Path) : (expectedPath p).fileName? = p.fileName?.map swap := by
  ext n
  rw [Path.fileName?_eq_some, spoken_expectedPath, List.getLast?_map, Option.map_eq_some_iff,
    Option.map_eq_some_iff]
  simp only [Path.fileName?_eq_some]
  constructor
  · rintro ⟨⟨m, hm, rfl⟩, hdots⟩
    exact ⟨m, ⟨hm, fun h => hdots (swap_eq_dots_iff.mpr h)⟩, rfl⟩
  · rintro ⟨m, ⟨hm, hdots⟩, rfl⟩
    exact ⟨⟨m, hm, rfl⟩, fun h => hdots (swap_eq_dots_iff.mp h)⟩

theorem dropWhileEnd_map_swap (parts : List Name) :
    dropWhileEnd Path.isSilent (parts.map swap) = (dropWhileEnd Path.isSilent parts).map swap := by
  have hsilent : Path.isSilent ∘ swap = Path.isSilent := funext isSilent_swap
  rw [dropWhileEnd, dropWhileEnd, ← List.map_reverse, List.dropWhile_map, hsilent, List.map_reverse]

theorem parentParts?_map_swap (parts : List Name) :
    Path.parentParts? (parts.map swap) = (Path.parentParts? parts).map (List.map swap) := by
  simp only [Path.parentParts?, dropWhileEnd_map_swap, List.isEmpty_map, ← List.map_dropLast]
  split <;> rfl

theorem parent?_expectedPath (p : Path) : (expectedPath p).parent? = p.parent?.map expectedPath := by
  rw [Path.parent?, Path.parent?, parts_expectedPath, parentParts?_map_swap, lead_expectedPath]
  cases hup : Path.parentParts? p.parts with
  | none =>
    simp only [Option.map_none]
    split
    · rw [Option.map_some]
      exact congrArg some (congrArg Path.mk (swap_eq_nil_iff.mpr rfl)).symm
    · rfl
  | some up =>
    simp only [Option.map_some, Option.some.injEq]
    exact (expectedPath_ofParts (Path.parentParts?_isPrefix hup)).symm

/-! ## Fixtures of a directory -/

/-- The input suffix occurs once more in the path: in that of the directory, or in the stem of the file name. -/
def Repeats (p : Path) : Prop :=
  (∃ up, p.parent? = some up ∧ inputSuffix <:+: up.text) ∨
    ∃ stem, p.fileName? = some (stem ++ inputSuffix) ∧ inputSuffix <:+: stem

theorem exists_stem_of_mem_collect {t : FileTree} {dir p : Path} (h : p ∈ collect t dir) :
    ∃ stem, p.fileName? = some (stem ++ inputSuffix) := by
  have hname := (List.mem_filter.mp h).2
  cases hn : p.fileName? with
  | none => simp [hn] at hname
  | some n =>
    rw [hn, Option.any_some, isInputName, List.isSuffixOf_iff_suffix] at hname
    obtain ⟨stem, rfl⟩ := hname
    exact ⟨stem, rfl⟩

/-- The expected file lies beside its input and has its stem just if the suffix is not repeated. -/
theorem beside_iff {p : Path} {stem : Name} (h : p.fileName? = some (stem ++ inputSuffix)) :
    (expectedPath p).parent? = p.parent? ∧ (expectedPath p).fileName? = some (stem ++ expectedSuffix) ↔
      ¬Repeats p := by
  have hparent : (expectedPath p).parent? = p.parent? ↔ ∀ up, p.parent? = some up → ¬inputSuffix <:+: up.text := by
    rw [parent?_expectedPath]
    cases p.parent? with
    | none => simp
    | some up =>
      simp only [Option.map_some, Option.some.injEq, forall_eq']
      rw [← swap_eq_self_iff]
      exact ⟨congrArg Path.text, congrArg Path.mk⟩
  have hname : (expectedPath p).fileName? = some (stem ++ expectedSuffix) ↔ ¬inputSuffix <:+: stem := by
    rw [fileName?_expectedPath, h, Option.map_some, swap_append_inputSuffix, Option.some.injEq,
      List.append_cancel_right_eq, swap_eq_self_iff]
  rw [hparent, hname, Repeats, not_or]
  constructor
  · rintro ⟨hup, hstem⟩
    refine ⟨fun ⟨up, hp, hsuffix⟩ => hup up hp hsuffix, fun ⟨stem', hn, hsuffix⟩ => hstem ?_⟩
    rw [h, Option.some.injEq, List.append_cancel_right_eq] at hn
    rwa [hn]
  · rintro ⟨hup, hstem⟩
    exact ⟨fun up hp hsuffix => hup ⟨up, hp, hsuffix⟩, fun hsuffix => hstem ⟨stem, h, hsuffix⟩⟩

theorem exists_difference {f : α → β} {xs ys : List α} (h : xs.map f = ys.map f) (hne : xs ≠ ys) :
    ∃ front x y xs' ys', xs = front ++ x :: xs' ∧ ys = front ++ y :: ys' ∧ x ≠ y ∧ f x = f y ∧
      xs'.map f = ys'.map f := by
  induction xs generalizing ys with
  | nil => exact absurd (List.map_eq_nil_iff.mp h.symm).symm hne
  | cons x xs ih =>
    obtain ⟨y, ys, rfl, hy, hys⟩ := List.map_eq_cons_iff.mp h.symm
    by_cases hxy : x = y
    · subst hxy
      obtain ⟨front, x', y', xs', ys', rfl, rfl, hrest⟩ := ih hys.symm fun heq => hne (heq ▸ rfl)
      exact ⟨x :: front, x', y', xs', ys', rfl, rfl, hrest⟩
    · exact ⟨[], x, y, xs, ys, rfl, rfl, hxy, hy.symm, hys.symm⟩

theorem infix_joinWith {sep : Char} {part : List Char} {parts : List (List Char)} (h : part ∈ parts) :
    part <:+: joinWith sep parts := by
  induction parts with
  | nil => simp at h
  | cons first parts ih =>
    by_cases hparts : parts = []
    · rw [hparts, List.mem_singleton] at h
      rw [h, hparts]
      exact List.infix_rfl
    · rw [joinWith_cons sep first hparts]
      rcases List.mem_cons.mp h with rfl | h
      · exact (List.prefix_append _ _).isInfix
      · exact (ih h).trans ((List.suffix_cons sep _).trans (List.suffix_append _ _)).isInfix

theorem infix_ofParts {lead : List Char} {part : Name} {parts : List Name} (h : part ∈ parts) :
    part <:+: (Path.ofParts lead parts).text := (infix_joinWith h).trans (List.suffix_append _ _).isInfix

theorem infix_text {p : Path} {part : Name} (h : part ∈ p.parts) : part <:+: p.text := by
  rw [p.text_eq]
  exact infix_ofParts h

/-- Where a part says something and has a part behind it that does so, it belongs to the path above. -/
theorem exists_parent_of_part {p : Path} {front rest : List Name} {part : Name} (h : p.parts = front ++ part :: rest)
    (hpart : Path.isSilent part = false) (hrest : Path.telling rest ≠ []) :
    ∃ up, p.parent? = some up ∧ part <:+: up.text := by
  have htelling : Path.telling p.parts = Path.telling front ++ part :: Path.telling rest := by
    rw [h, Path.telling, List.filter_append, List.filter_cons_of_pos (by simp [hpart])]
    rfl
  cases hup : Path.parentParts? p.parts with
  | none =>
    simp only [Path.parentParts?, List.isEmpty_iff, ite_eq_left_iff, reduceCtorEq, imp_false, not_not] at hup
    have hnone := Path.filter_dropWhileEnd Path.isSilent p.parts
    rw [hup, List.filter_nil] at hnone
    exact absurd (htelling.symm.trans hnone.symm) (by simp)
  | some up =>
    refine ⟨Path.ofParts p.lead up, by rw [Path.parent?, hup], infix_ofParts ?_⟩
    obtain ⟨-, last, hlast⟩ := Path.parentParts?_eq_some hup
    obtain ⟨mid, n, hmid⟩ := (List.eq_nil_or_concat' (Path.telling rest)).resolve_left hrest
    rw [htelling, hmid, ← List.cons_append, ← List.append_assoc] at hlast
    have hmem : part ∈ Path.telling up := by
      rw [← (List.append_inj' hlast rfl).1]
      simp
    exact (List.mem_filter.mp hmem).1

/-- A part with nothing but silent ones behind it is the file name. -/
theorem fileName?_eq_of_part {p : Path} {front rest : List Name} {n part : Name} (h : p.parts = front ++ part :: rest)
    (hpart : Path.isSilent part = false) (hrest : Path.telling rest = []) (hn : p.fileName? = some n) : part = n := by
  obtain ⟨hlast, -⟩ := Path.fileName?_eq_some.mp hn
  rw [← Path.filter_parts, h, List.filter_append, List.filter_cons_of_pos (by simp [hpart])] at hlast
  rw [Path.telling] at hrest
  rw [hrest, List.getLast?_concat, Option.some.injEq] at hlast
  exact hlast

theorem telling_map_swap (parts : List Name) : Path.telling (parts.map swap) = (Path.telling parts).map swap := by
  rw [Path.telling, List.filter_map]
  refine congrArg _ (List.filter_congr fun part _ => ?_)
  rw [Function.comp_apply, isSilent_swap]

theorem swap_of_isSilent {n : Name} (h : Path.isSilent n = true) : swap n = n := by
  simp only [Path.isSilent, Bool.or_eq_true, List.isEmpty_iff, decide_eq_true_eq] at h
  rcases h with rfl | rfl
  · exact swap_eq_nil_iff.mpr rfl
  · exact swap_eq_dot_iff.mpr rfl

/-- Two inputs have one expected file only if one has the input suffix where the other has the expected one. -/
theorem repeats_of_expectedPath_eq {p q : Path} {stem stem' : Name} (hp : p.fileName? = some (stem ++ inputSuffix))
    (hq : q.fileName? = some (stem' ++ inputSuffix)) (hne : p ≠ q) (h : expectedPath p = expectedPath q) :
    Repeats p ∧ expectedSuffix <:+: q.text ∨ Repeats q ∧ expectedSuffix <:+: p.text := by
  have hlead : p.lead = q.lead := by rw [← lead_expectedPath p, h, lead_expectedPath]
  have hparts : p.parts.map swap = q.parts.map swap := by rw [← parts_expectedPath, h, parts_expectedPath]
  have hdiffer : p.parts ≠ q.parts := by
    intro hsame
    have htext := p.text_eq
    rw [hlead, hsame, ← q.text_eq] at htext
    exact hne (congrArg Path.mk htext)
  -- The first part in which they differ says something in both, as only such parts change.
  obtain ⟨front, a, b, xs, ys, hpa, hqb, hab, hswap, hrest⟩ := exists_difference hparts hdiffer
  have hsame : Path.isSilent a = Path.isSilent b := by rw [← isSilent_swap a, hswap, isSilent_swap]
  have ha : Path.isSilent a = false := by
    by_contra hsilent
    rw [Bool.not_eq_false] at hsilent
    exact hab (by rw [← swap_of_isSilent hsilent, hswap, swap_of_isSilent (hsame ▸ hsilent)])
  have htelling : Path.telling xs = [] ↔ Path.telling ys = [] := by
    rw [← List.map_eq_nil_iff (f := swap), ← telling_map_swap, hrest, telling_map_swap, List.map_eq_nil_iff]
  have hina := infix_text (hpa ▸ List.mem_append_right front List.mem_cons_self)
  have hinb := infix_text (hqb ▸ List.mem_append_right front List.mem_cons_self)
  by_cases hlast : Path.telling xs = []
  · -- The two file names differ, and so do their stems.
    obtain rfl := fileName?_eq_of_part hpa ha hlast hp
    obtain rfl := fileName?_eq_of_part hqb (hsame ▸ ha) (htelling.mp hlast) hq
    rw [swap_append_inputSuffix, swap_append_inputSuffix, List.append_cancel_right_eq] at hswap
    rcases eq_or_clash_of_swap_eq hswap with rfl | ⟨hfrom, hto⟩ | ⟨hfrom, hto⟩
    · exact absurd rfl hab
    · exact Or.inl ⟨Or.inr ⟨stem, hp, hfrom⟩, (hto.trans (List.prefix_append _ _).isInfix).trans hinb⟩
    · exact Or.inr ⟨Or.inr ⟨stem', hq, hfrom⟩, (hto.trans (List.prefix_append _ _).isInfix).trans hina⟩
  · obtain ⟨up, hup, haup⟩ := exists_parent_of_part hpa ha hlast
    obtain ⟨up', hup', hbup⟩ := exists_parent_of_part hqb (hsame ▸ ha) (mt htelling.mpr hlast)
    rcases eq_or_clash_of_swap_eq hswap with rfl | ⟨hfrom, hto⟩ | ⟨hfrom, hto⟩
    · exact absurd rfl hab
    · exact Or.inl ⟨Or.inl ⟨up, hup, hfrom.trans haup⟩, hto.trans hinb⟩
    · exact Or.inr ⟨Or.inl ⟨up', hup', hfrom.trans hbup⟩, hto.trans hina⟩

theorem not_inputSuffix_suffix (stem : Name) : ¬inputSuffix <:+ stem ++ expectedSuffix := by
  intro h
  exact absurd (List.suffix_of_suffix_length_le h (List.suffix_append stem expectedSuffix) (by decide)) (by decide)

/-- How the inputs of a directory and their expected files go together. -/
structure Paired (t : FileTree) (dir : Path) : Prop where
  beside : ∀ p ∈ collect t dir, ∃ stem, p.fileName? = some (stem ++ inputSuffix) ∧
    ((expectedPath p).parent? = p.parent? ∧ (expectedPath p).fileName? = some (stem ++ expectedSuffix) ↔
      ¬Repeats p)
  distinct : ∀ p ∈ collect t dir, ∀ q ∈ collect t dir, p ≠ q → expectedPath p = expectedPath q →
    Repeats p ∧ expectedSuffix <:+: q.text ∨ Repeats q ∧ expectedSuffix <:+: p.text
  fresh : ∀ p ∈ collect t dir, expectedPath p ∉ collect t dir

/-- The expected files are beside their inputs and each belongs to one of them, but for repeated suffixes. -/
theorem collect_paired (t : FileTree) (dir : Path) : Paired t dir where
  beside p hp := by
    obtain ⟨stem, hstem⟩ := exists_stem_of_mem_collect hp
    exact ⟨stem, hstem, beside_iff hstem⟩
  distinct p hp q hq hne h := by
    obtain ⟨stem, hstem⟩ := exists_stem_of_mem_collect hp
    obtain ⟨stem', hstem'⟩ := exists_stem_of_mem_collect hq
    exact repeats_of_expectedPath_eq hstem hstem' hne h
  fresh p hp hfresh := by
    obtain ⟨stem, hstem⟩ := exists_stem_of_mem_collect hp
    obtain ⟨stem', hname⟩ := exists_stem_of_mem_collect hfresh
    rw [fileName?_expectedPath, hstem, Option.map_some, swap_append_inputSuffix, Option.some.injEq] at hname
    exact not_inputSuffix_suffix (swap stem) ⟨stem', hname.symm⟩

/-- A directory that has the suffix in its name, and two stems that have the suffixes in them. -/
def repeating : FileTree where
  entries :=
    [(["a.input.fjs".toList], .directory), (["a.input.fjs".toList, "b.input.fjs".toList], .file .empty),
      (["d".toList], .directory), (["d".toList, "a.input.fjs.input.fjs".toList], .file .empty),
      (["d".toList, "a.expected.js.input.fjs".toList], .file .empty)]
  current := []

/-- An expected file in another directory, and two inputs with one expected file. -/
theorem collect_repeating : repeating.WellFormed ∧
    (.ofString "a.input.fjs/b.input.fjs" ∈ collect repeating (.ofString "a.input.fjs") ∧
      (expectedPath (.ofString "a.input.fjs/b.input.fjs")).parent? = some (.ofString "a.expected.js")) ∧
    (collect repeating (.ofString "d") =
        [.ofString "d/a.expected.js.input.fjs", .ofString "d/a.input.fjs.input.fjs"] ∧
      expectedPath (.ofString "d/a.expected.js.input.fjs") = expectedPath (.ofString "d/a.input.fjs.input.fjs")) := by
  have hdir : collect repeating (.ofString "a.input.fjs") = [.ofString "a.input.fjs/b.input.fjs"] := by cbv
  refine ⟨.of_entries (by decide) (by decide) (by decide), ⟨hdir ▸ List.mem_singleton_self _, ?_⟩, ?_, ?_⟩ <;> cbv

end Fixture

end Florin
