import Florin.Build.Walk
import Florin.Proofs.FileTree.Output

/-! # The names of outputs

A source file with the extension `fjs`, in any case of its letters, is written with the extension `js`, and every
other file under its own name. Two files have one output if and only if they are in one directory, have one stem, and
differ in nothing but these extensions.
-/
namespace Florin

namespace Path
open Text

variable {n stem ext : Name}

theorem splitName_append (hstem : stem ≠ []) (hdot : '.' ∉ ext) (hne : ext ≠ []) :
    splitName (stem ++ '.' :: ext) = (stem, some ext) := by
  have hsplit : (splitOn '.' (stem ++ '.' :: ext)).reverse = ext :: (splitOn '.' stem).reverse := by
    rw [splitOn_append_cons, splitOn_of_notMem hdot, List.reverse_append]
    rfl
  have hdots : stem ++ '.' :: ext ≠ dots := by
    intro heq
    have hlength := congrArg List.length heq
    have hstem := List.length_pos_iff.mpr hstem
    have hext := List.length_pos_iff.mpr hne
    simp only [dots, List.length_append, List.length_cons, List.length_nil] at hlength
    omega
  cases hparts : (splitOn '.' stem).reverse with
  | nil => exact absurd (List.reverse_eq_nil_iff.mp hparts) (splitOn_ne_nil '.' stem)
  | cons last front =>
    have hjoin : joinWith '.' (last :: front).reverse = stem := by
      rw [← hparts, List.reverse_reverse]
      exact joinWith_splitOn '.' stem
    rw [splitName, hsplit, hparts]
    dsimp only
    rw [hjoin, if_neg (by simp [hstem, hdots])]

theorem splitName_eq_some (h : splitName n = (stem, some ext)) :
    stem ≠ [] ∧ '.' ∉ ext ∧ n = stem ++ '.' :: ext := by
  rw [splitName] at h
  split at h
  · rename_i ext' stem' more hparts
    dsimp only at h
    split at h
    · exact absurd (Prod.mk.inj h).2 (by simp)
    · rename_i hnot
      obtain ⟨rfl, hext⟩ := Prod.mk.inj h
      obtain rfl := Option.some.inj hext
      have hsplit : splitOn '.' n = (stem' :: more).reverse ++ [ext'] := by
        rw [← List.reverse_reverse (splitOn '.' n), hparts]
        simp
      have hjoin := joinWith_splitOn '.' n
      rw [hsplit, joinWith_append (by simp) (by simp)] at hjoin
      refine ⟨?_, ?_, hjoin.symm⟩
      · intro hnil
        rw [hnil] at hnot
        exact hnot rfl
      · have hmem : ext' ∈ splitOn '.' n := by simp [hsplit]
        exact notMem_of_mem_splitOn hmem
  · exact absurd (Prod.mk.inj h).2 (by simp)

theorem withExtension_append (hstem : stem ≠ []) (hdot : '.' ∉ ext) (hne : ext ≠ []) (ext' : Name) :
    withExtension (stem ++ '.' :: ext) ext' = if stem = dot then dots else stem ++ '.' :: ext' := by
  have hkept : stem ++ ['.'] = dot ++ ['.'] ↔ stem = dot := List.append_left_inj ['.']
  change stem ++ ['.'] = dots ↔ stem = dot at hkept
  simp [withExtension, splitName_append hstem hdot hne, hkept]

end Path

namespace Build
open FileTree Florin.Path

variable {file file' front front' names : List Name} {n n' stem stem' ext ext' : Name}

/-- The extension `fjs`, in any case of its letters. -/
def IsSourceExtension (ext : Name) : Prop := ext.map Char.toLower = sourceExtension

instance : DecidablePred IsSourceExtension := fun _ => inferInstanceAs (Decidable (_ = _))

theorem IsSourceExtension.dot_notMem (h : IsSourceExtension ext) : '.' ∉ ext := by
  intro hdot
  have hmem : Char.toLower '.' ∈ sourceExtension := h ▸ List.mem_map_of_mem hdot
  exact absurd hmem (by decide)

theorem IsSourceExtension.ne_nil (h : IsSourceExtension ext) : ext ≠ [] := by
  rintro rfl
  exact absurd h (by decide)

theorem isShorthandSource_append (hstem : stem ≠ []) (hdot : '.' ∉ ext) (hne : ext ≠ []) :
    isShorthandSource (stem ++ '.' :: ext) = true ↔ IsSourceExtension ext := by
  rw [isShorthandSource, extension?, splitName_append hstem hdot hne]
  exact decide_eq_true_iff

theorem isShorthandSource_iff : isShorthandSource n = true ↔
    ∃ stem ext, stem ≠ [] ∧ IsSourceExtension ext ∧ n = stem ++ '.' :: ext := by
  constructor
  · intro h
    rw [isShorthandSource, Option.any_eq_true] at h
    obtain ⟨ext, hext, hlower⟩ := h
    obtain ⟨hstem, -, hn⟩ := splitName_eq_some (Prod.ext rfl hext)
    exact ⟨_, ext, hstem, of_decide_eq_true hlower, hn⟩
  · rintro ⟨stem, ext, hstem, hext, rfl⟩
    exact (isShorthandSource_append hstem hext.dot_notMem hext.ne_nil).mpr hext

/-- A file that is expanded; the others are copied. -/
def isExpanded (file : List Name) : Bool := file.getLast?.any isShorthandSource

/-- The expanded files are those with the extension `fjs`, in any case of its letters. -/
theorem isExpanded_iff : isExpanded file = true ↔
    ∃ front stem ext, stem ≠ [] ∧ IsSourceExtension ext ∧ file = front ++ [stem ++ '.' :: ext] := by
  constructor
  · intro h
    obtain ⟨n, hlast, hsource⟩ := (Option.any_eq_true _ _).mp h
    obtain ⟨front, rfl⟩ := List.getLast?_eq_some_iff.mp hlast
    obtain ⟨stem, ext, hstem, hext, rfl⟩ := isShorthandSource_iff.mp hsource
    exact ⟨front, stem, ext, hstem, hext, rfl⟩
  · rintro ⟨front, stem, ext, hstem, hext, rfl⟩
    rw [isExpanded, List.getLast?_concat]
    exact isShorthandSource_iff.mpr ⟨stem, ext, hstem, hext, rfl⟩

/-- The name that a source file is written under. -/
def outputName (n : Name) : Name := if isShorthandSource n then withExtension n outputExtension else n

theorem outputNames_concat (front : List Name) (n : Name) : outputNames (front ++ [n]) = front ++ [outputName n] := by
  rw [outputNames, List.getLast?_concat, outputName]
  dsimp only
  split
  · rw [List.dropLast_concat]
  · rfl

theorem outputName_of_source (hstem : stem ≠ []) (hext : IsSourceExtension ext) :
    outputName (stem ++ '.' :: ext) = if stem = dot then dots else stem ++ '.' :: outputExtension := by
  rw [outputName, if_pos ((isShorthandSource_append hstem hext.dot_notMem hext.ne_nil).mpr hext)]
  exact withExtension_append hstem hext.dot_notMem hext.ne_nil outputExtension

theorem outputName_of_other (h : ∀ stem ext, stem ≠ [] → IsSourceExtension ext → n ≠ stem ++ '.' :: ext) :
    outputName n = n := by
  apply if_neg
  intro hsource
  obtain ⟨stem, ext, hstem, hext, hn⟩ := isShorthandSource_iff.mp hsource
  exact h stem ext hstem hext hn

/-- The names of an output are those of its source up to the last one. -/
theorem exists_outputNames (hnames : ∀ m ∈ names, Proper m) (hn : Proper n) :
    ∃ last, OutputNames (outputNames (names ++ [n])) names last := by
  suffices hlast : Spelled (outputName n) ∧ outputName n ≠ dot from
    ⟨outputName n, outputNames_concat names n, hnames, hlast.1, hlast.2⟩
  rw [outputName]
  split
  · rename_i hsource
    obtain ⟨stem, ext, hstem, hext, rfl⟩ := isShorthandSource_iff.mp hsource
    rw [withExtension_append hstem hext.dot_notMem hext.ne_nil]
    split
    · exact ⟨⟨by decide, by decide⟩, by decide⟩
    · have hslash : '/' ∉ stem := fun hmem => hn.no_slash (List.mem_append_left _ hmem)
      refine ⟨⟨by simp, by simp [hslash, outputExtension]⟩, ?_⟩
      intro hdot
      have hlength := congrArg List.length hdot
      simp [dot, outputExtension] at hlength
  · exact ⟨hn.spelled, hn.ne_dot⟩

/-- An extension that is written as `js`: this one, or `fjs` in any case of its letters. -/
def IsScriptExtension (ext : Name) : Prop := ext = outputExtension ∨ IsSourceExtension ext

theorem outputName_of_script (hstem : stem ≠ []) (hdot : stem ≠ dot) (hext : IsScriptExtension ext) :
    outputName (stem ++ '.' :: ext) = stem ++ '.' :: outputExtension := by
  rcases hext with rfl | hext
  · apply if_neg
    rw [isShorthandSource_append hstem (by decide) (by decide)]
    decide
  · rw [outputName_of_source hstem hext, if_neg hdot]

/-- Names that are written as one have one stem and extensions that are written as `js`. -/
theorem outputName_eq_imp (hn : n ≠ dots) (hn' : n' ≠ dots) (h : outputName n = outputName n') : n = n' ∨
    ∃ stem ext ext', stem ≠ [] ∧ IsScriptExtension ext ∧ IsScriptExtension ext' ∧ n = stem ++ '.' :: ext ∧
      n' = stem ++ '.' :: ext' := by
  have hlead (stem : Name) : dots ≠ stem ++ '.' :: outputExtension := by
    intro heq
    have hlength := congrArg List.length heq
    simp [dots, outputExtension] at hlength
  -- A source and another name: the other one is what the source is written as.
  have hmixed {stem ext n' : Name} (hstem : stem ≠ []) (hext : IsSourceExtension ext) (hn' : n' ≠ dots)
      (h : outputName (stem ++ '.' :: ext) = n') : n' = stem ++ '.' :: outputExtension := by
    rw [outputName_of_source hstem hext] at h
    split at h
    · exact absurd h.symm hn'
    · exact h.symm
  by_cases hsource : isShorthandSource n = true
  · obtain ⟨stem, ext, hstem, hext, rfl⟩ := isShorthandSource_iff.mp hsource
    right
    by_cases hsource' : isShorthandSource n' = true
    · obtain ⟨stem', ext', hstem', hext', rfl⟩ := isShorthandSource_iff.mp hsource'
      refine ⟨stem, ext, ext', hstem, .inr hext, .inr hext', rfl, ?_⟩
      rw [outputName_of_source hstem hext, outputName_of_source hstem' hext'] at h
      split at h <;> split at h
      · rename_i hdot hdot'
        rw [hdot, hdot']
      · exact absurd h (hlead stem')
      · exact absurd h.symm (hlead stem)
      · rw [List.append_cancel_right h]
    · have hn'' : outputName n' = n' := if_neg hsource'
      rw [hn''] at h
      exact ⟨stem, ext, outputExtension, hstem, .inr hext, .inl rfl, rfl, hmixed hstem hext hn' h⟩
  · rw [outputName, if_neg hsource] at h
    by_cases hsource' : isShorthandSource n' = true
    · obtain ⟨stem, ext, hstem, hext, rfl⟩ := isShorthandSource_iff.mp hsource'
      right
      exact ⟨stem, outputExtension, ext, hstem, .inl rfl, .inr hext, hmixed hstem hext hn h.symm, rfl⟩
    · have hn'' : outputName n' = n' := if_neg hsource'
      rw [hn''] at h
      exact .inl h

/-- Two files of one directory have one stem, and their extensions differ and are written as `js`. -/
def Twins (file file' : List Name) : Prop :=
  ∃ front stem ext ext', stem ≠ [] ∧ ext ≠ ext' ∧ IsScriptExtension ext ∧ IsScriptExtension ext' ∧
    file = front ++ [stem ++ '.' :: ext] ∧ file' = front ++ [stem ++ '.' :: ext']

namespace Twins

theorem symm (h : Twins file file') : Twins file' file := by
  obtain ⟨front, stem, ext, ext', hstem, hne, hext, hext', hfile, hfile'⟩ := h
  exact ⟨front, stem, ext', ext, hstem, hne.symm, hext', hext, hfile', hfile⟩

theorem ne (h : Twins file file') : file ≠ file' := by
  obtain ⟨front, stem, ext, ext', -, hne, -, -, rfl, rfl⟩ := h
  simpa using hne

theorem outputNames_eq (h : Twins file file') (hfile : dots ∉ outputNames file) (hfile' : dots ∉ outputNames file') :
    outputNames file = outputNames file' := by
  obtain ⟨front, stem, ext, ext', hstem, hne, hext, hext', rfl, rfl⟩ := h
  rw [outputNames_concat] at hfile hfile'
  have hsource {ext : Name} (hext : IsSourceExtension ext) (hup : dots ∉ front ++ [outputName (stem ++ '.' :: ext)]) :
      stem ≠ dot := by
    rintro rfl
    apply hup
    rw [outputName_of_source hstem hext, if_pos rfl]
    simp
  have hdot : stem ≠ dot := by
    rcases hext with rfl | hext
    · rcases hext' with rfl | hext'
      · exact absurd rfl hne
      · exact hsource hext' hfile'
    · exact hsource hext hfile
  rw [outputNames_concat, outputNames_concat, outputName_of_script hstem hdot hext,
    outputName_of_script hstem hdot hext']

end Twins

theorem eq_or_twins (hfile : ∀ n ∈ file, n ≠ dots) (hfile' : ∀ n ∈ file', n ≠ dots)
    (h : outputNames file = outputNames file') : file = file' ∨ Twins file file' := by
  rcases List.eq_nil_or_concat' file with rfl | ⟨front, n, rfl⟩ <;>
    rcases List.eq_nil_or_concat' file' with rfl | ⟨front', n', rfl⟩
  · exact .inl rfl
  · rw [outputNames_concat] at h
    exact absurd h.symm (by simp [outputNames])
  · rw [outputNames_concat] at h
    exact absurd h (by simp [outputNames])
  · rw [outputNames_concat, outputNames_concat] at h
    obtain ⟨rfl, hlast⟩ := List.append_inj' h rfl
    rcases outputName_eq_imp (hfile n (by simp)) (hfile' n' (by simp)) (List.cons.inj hlast).1 with rfl | hstem
    · exact .inl rfl
    · obtain ⟨stem, ext, ext', hstem, hext, hext', rfl, rfl⟩ := hstem
      by_cases hsame : ext = ext'
      · left
        rw [hsame]
      · right
        exact ⟨front, stem, ext, ext', hstem, hsame, hext, hext', rfl, rfl⟩

/-- Files have one output if and only if they are the same or twins. -/
theorem outputNames_eq_iff (hfile : ∀ n ∈ file, n ≠ dots) (hfile' : ∀ n ∈ file', n ≠ dots)
    (hup : dots ∉ outputNames file) (hup' : dots ∉ outputNames file') :
    outputNames file = outputNames file' ↔ file = file' ∨ Twins file file' := by
  constructor
  · intro h
    exact eq_or_twins hfile hfile' h
  · rintro (rfl | htwins)
    · rfl
    · exact htwins.outputNames_eq hup hup'

end Build

end Florin
