import Florin.FileTree.Resolve
import Mathlib.Data.List.TakeWhile

/-! # The names of a path

A path leads somewhere by its names alone. Joining paths appends their names, and the paths above a path
have the names at its front.
-/
namespace Florin
open Text

namespace Text

theorem splitOn_append_cons (sep : Char) (cs ds : List Char) :
    splitOn sep (cs ++ sep :: ds) = splitOn sep cs ++ splitOn sep ds := by
  induction cs with
  | nil => simp [splitOn]
  | cons c cs ih =>
    obtain ⟨part, parts, hp⟩ := List.exists_cons_of_ne_nil (splitOn_ne_nil sep cs)
    rw [List.cons_append, splitOn, splitOn, ih, hp]
    split <;> rfl

theorem splitOn_of_notMem {sep : Char} {cs : List Char} (h : sep ∉ cs) : splitOn sep cs = [cs] := by
  induction cs with
  | nil => rfl
  | cons c cs ih =>
    rw [List.mem_cons, not_or] at h
    rw [splitOn, if_neg (Ne.symm h.1), ih h.2]

theorem notMem_of_mem_splitOn {sep : Char} {cs part : List Char} (h : part ∈ splitOn sep cs) :
    sep ∉ part := by
  induction cs generalizing part with
  | nil =>
    rw [splitOn, List.mem_singleton] at h
    simp [h]
  | cons c cs ih =>
    obtain ⟨first, parts, hp⟩ := List.exists_cons_of_ne_nil (splitOn_ne_nil sep cs)
    rw [splitOn, hp] at h
    rw [hp] at ih
    split at h
    · rcases List.mem_cons.mp h with rfl | h
      · simp
      · exact ih h
    · rename_i hc
      rcases List.mem_cons.mp h with rfl | h
      · rw [List.mem_cons, not_or]
        exact ⟨Ne.symm hc, ih List.mem_cons_self⟩
      · exact ih (List.mem_cons_of_mem _ h)

theorem joinWith_cons (sep : Char) (part : List Char) {parts : List (List Char)} (h : parts ≠ []) :
    joinWith sep (part :: parts) = part ++ sep :: joinWith sep parts := by
  obtain ⟨next, parts, rfl⟩ := List.exists_cons_of_ne_nil h
  rfl

theorem joinWith_append {sep : Char} {front rest : List (List Char)} (hf : front ≠ []) (hr : rest ≠ []) :
    joinWith sep (front ++ rest) = joinWith sep front ++ sep :: joinWith sep rest := by
  induction front with
  | nil => exact absurd rfl hf
  | cons part front ih =>
    by_cases hfront : front = []
    · rw [hfront]
      exact joinWith_cons sep part hr
    · rw [List.cons_append, joinWith_cons sep part (by simp [hfront]), joinWith_cons sep part hfront, ih hfront,
        List.append_assoc, List.cons_append]

theorem splitOn_joinWith {sep : Char} {parts : List (List Char)} (hne : parts ≠ [])
    (h : ∀ part ∈ parts, sep ∉ part) : splitOn sep (joinWith sep parts) = parts := by
  induction parts with
  | nil => exact absurd rfl hne
  | cons part parts ih =>
    have hpart := splitOn_of_notMem (h part List.mem_cons_self)
    by_cases hparts : parts = []
    · rw [hparts]
      exact hpart
    · rw [joinWith_cons sep part hparts, splitOn_append_cons, hpart,
        ih hparts fun p hp => h p (List.mem_cons_of_mem _ hp), List.singleton_append]

theorem joinWith_isPrefix {sep : Char} {front parts : List (List Char)} (h : front <+: parts) :
    joinWith sep front <+: joinWith sep parts := by
  obtain ⟨rest, rfl⟩ := h
  by_cases hf : front = []
  · rw [hf]
    exact List.nil_prefix
  · by_cases hr : rest = []
    · simp [hr]
    · rw [joinWith_append hf hr]
      exact List.prefix_append _ _

theorem dropWhileEnd_isPrefix (p : α → Bool) (xs : List α) : dropWhileEnd p xs <+: xs :=
  ⟨_, dropWhileEnd_append_takeWhile p xs⟩

end Text

namespace Path

/-- A name that leads into a directory. -/
structure Word (n : Name) : Prop where
  ne_nil : n ≠ []
  ne_dot : n ≠ dot
  ne_dots : n ≠ dots
  short : byteLength n ≤ 255

/-- A name that stays what it is within a path. -/
structure Spelled (n : Name) : Prop where
  ne_nil : n ≠ []
  no_slash : '/' ∉ n

/-- What an entry of a directory can be called. -/
structure Proper (n : Name) : Prop extends Word n where
  no_slash : '/' ∉ n

instance (n : Name) : Decidable (Proper n) :=
  decidable_of_iff (n ≠ [] ∧ n ≠ dot ∧ n ≠ dots ∧ byteLength n ≤ 255 ∧ '/' ∉ n)
    ⟨fun ⟨hnil, hdot, hdots, hshort, hslash⟩ => ⟨⟨hnil, hdot, hdots, hshort⟩, hslash⟩,
      fun h => ⟨h.ne_nil, h.ne_dot, h.ne_dots, h.short, h.no_slash⟩⟩

theorem Proper.spelled {n : Name} (h : Proper n) : Spelled n := ⟨h.ne_nil, h.no_slash⟩

theorem Word.not_silent {n : Name} (h : Word n) : isSilent n = false := by
  simp [isSilent, h.ne_nil, h.ne_dot]

theorem names_empty : names ⟨[]⟩ = [] := rfl

theorem ne_nil_of_mem_names {p : Path} {n : Name} (h : n ∈ p.names) : n ≠ [] := by
  rintro rfl
  simp [names] at h

theorem no_slash_of_mem_names {p : Path} {n : Name} (h : n ∈ p.names) : '/' ∉ n :=
  notMem_of_mem_splitOn (List.mem_filter.mp h).1

theorem no_slash_of_mem_steps {p : Path} {n : Name} (h : n ∈ p.steps) : '/' ∉ n := by
  rw [steps, List.mem_append] at h
  rcases h with h | h
  · exact no_slash_of_mem_names h
  · split at h
    · rw [List.mem_singleton.mp h]
      simp
    · simp at h

theorem names_append_slash (cs ds : List Char) : names ⟨cs ++ '/' :: ds⟩ = names ⟨cs⟩ ++ names ⟨ds⟩ := by
  simp only [names, splitOn_append_cons, List.filter_append]

theorem exists_of_endsInSlash {p : Path} (h : p.endsInSlash = true) : ∃ cs, p.text = cs ++ ['/'] := by
  simp only [endsInSlash, decide_eq_true_eq] at h
  exact List.getLast?_eq_some_iff.mp h

theorem names_ofNames {ns : List Name} (hns : ∀ n ∈ ns, Spelled n) : (ofNames ns).names = ns := by
  cases ns with
  | nil => rfl
  | cons n ns =>
    rw [names, ofNames, splitOn_joinWith (List.cons_ne_nil _ _) fun m hm => (hns m hm).no_slash,
      List.filter_eq_self]
    intro m hm
    simpa using (hns m hm).ne_nil

theorem isAbsolute_ofNames {ns : List Name} (hns : ∀ n ∈ ns, Spelled n) : (ofNames ns).isAbsolute = false := by
  cases ns with
  | nil => rfl
  | cons n ns =>
    have hn := hns n List.mem_cons_self
    obtain ⟨c, n, rfl⟩ := List.exists_cons_of_ne_nil hn.ne_nil
    have hc : c ≠ '/' := fun h => hn.no_slash (h ▸ List.mem_cons_self)
    cases ns <;> simpa [isAbsolute, ofNames, joinWith] using hc

theorem endsInSlash_append {cs ds : List Char} (h : ds ≠ []) : endsInSlash ⟨cs ++ ds⟩ = endsInSlash ⟨ds⟩ := by
  obtain ⟨front, c, rfl⟩ := (List.eq_nil_or_concat ds).resolve_left h
  simp [endsInSlash, ← List.append_assoc]

theorem ofNames_text_ne_nil {ns : List Name} (hne : ns ≠ []) (hns : ∀ n ∈ ns, Spelled n) :
    (ofNames ns).text ≠ [] := by
  intro h
  have hnames := names_ofNames hns
  rw [names, h] at hnames
  exact hne hnames.symm

theorem endsInSlash_joinWith (cs : List Char) {parts : List Name} {n : Name} (hlast : parts.getLast? = some n)
    (hn : Spelled n) : endsInSlash ⟨cs ++ joinWith '/' parts⟩ = false := by
  obtain ⟨front, rfl⟩ := List.getLast?_eq_some_iff.mp hlast
  have hname : endsInSlash ⟨n⟩ = false := by
    rw [← Bool.not_eq_true]
    intro h
    obtain ⟨ds, rfl⟩ := exists_of_endsInSlash h
    exact hn.no_slash (by simp)
  by_cases hfront : front = []
  · rw [hfront]
    exact (endsInSlash_append hn.ne_nil).trans hname
  · rw [joinWith_append hfront (List.cons_ne_nil _ _), List.append_cons, ← List.append_assoc]
    exact (endsInSlash_append hn.ne_nil).trans hname

theorem endsInSlash_ofNames {ns : List Name} (hns : ∀ n ∈ ns, Spelled n) : (ofNames ns).endsInSlash = false := by
  cases hn : ns.getLast? with
  | none =>
    rw [List.getLast?_eq_none_iff.mp hn]
    rfl
  | some n => exact endsInSlash_joinWith [] hn (hns n (List.mem_of_getLast? hn))

theorem names_ne_nil_of_relative {p : Path} (hrelative : p.isAbsolute = false) (htext : p.text ≠ []) :
    p.names ≠ [] := by
  obtain ⟨c, cs, hc⟩ := List.exists_cons_of_ne_nil htext
  obtain ⟨part, parts, hparts⟩ := List.exists_cons_of_ne_nil (splitOn_ne_nil '/' cs)
  have hslash : c ≠ '/' := by simpa [isAbsolute, hc] using hrelative
  rw [names, hc, splitOn, if_neg hslash, hparts]
  simp

theorem names_join_of_relative (p : Path) {q : Path} (hq : q.isAbsolute = false) :
    (p.join q).names = p.names ++ q.names := by
  rw [join, hq, Bool.false_or]
  split
  · rename_i hempty
    rw [List.isEmpty_iff] at hempty
    have hp : p.names = [] := by
      rw [names, hempty]
      rfl
    rw [hp, List.nil_append]
  · split
    · rename_i hslash
      obtain ⟨cs, hcs⟩ := exists_of_endsInSlash hslash
      have hp : p.names = names ⟨cs⟩ ++ [] := by
        rw [← names_empty, ← names_append_slash, ← hcs]
      rw [hcs, List.append_assoc, List.singleton_append, names_append_slash, hp, List.append_nil]
    · exact names_append_slash _ _

theorem isAbsolute_join_of_relative (p : Path) {q : Path} (hq : q.isAbsolute = false) :
    (p.join q).isAbsolute = p.isAbsolute := by
  rw [join, hq, Bool.false_or]
  split
  · rename_i hempty
    rw [List.isEmpty_iff] at hempty
    rw [hq, isAbsolute, hempty]
    rfl
  · rename_i hne
    obtain ⟨c, cs, hc⟩ := List.exists_cons_of_ne_nil (by simpa using hne : p.text ≠ [])
    split <;> simp [isAbsolute, hc]

theorem join_suffix (p : Path) (q : Path) : q.text <:+ (p.join q).text := by
  rw [join]
  split
  · exact List.suffix_refl _
  · split
    · exact List.suffix_append _ _
    · rw [List.append_cons]
      exact List.suffix_append _ _

theorem endsInSlash_of_suffix {p q : Path} (h : q.text <:+ p.text) (hne : q.text ≠ []) :
    p.endsInSlash = q.endsInSlash := by
  obtain ⟨cs, hcs⟩ := h
  have htext : endsInSlash ⟨cs ++ q.text⟩ = q.endsInSlash := endsInSlash_append hne
  rw [hcs] at htext
  exact htext

theorem names_join (p : Path) {ns : List Name} (hns : ∀ n ∈ ns, Spelled n) :
    (p.join (ofNames ns)).names = p.names ++ ns := by
  rw [names_join_of_relative p (isAbsolute_ofNames hns), names_ofNames hns]

theorem isAbsolute_join (p : Path) {ns : List Name} (hns : ∀ n ∈ ns, Spelled n) :
    (p.join (ofNames ns)).isAbsolute = p.isAbsolute :=
  isAbsolute_join_of_relative p (isAbsolute_ofNames hns)

theorem steps_join (p : Path) {ns : List Name} (hne : ns ≠ []) (hns : ∀ n ∈ ns, Spelled n) :
    (p.join (ofNames ns)).steps = p.names ++ ns := by
  have hslash : (p.join (ofNames ns)).endsInSlash = false :=
    (endsInSlash_of_suffix (p.join_suffix _) (ofNames_text_ne_nil hne hns)).trans (endsInSlash_ofNames hns)
  rw [steps, hslash, names_join p hns]
  simp

theorem fault?_of_infix {p q : Path} (h : q.text <:+: p.text) (hne : q.text ≠ []) (hp : p.fault? = none) :
    q.fault? = none := by
  obtain ⟨cs, ds, hp'⟩ := h
  simp only [fault?, ← hp', byteLength_append] at hp ⊢
  split at hp
  · exact absurd hp (by simp)
  · split at hp
    · exact absurd hp (by simp)
    · rename_i hzero
      split at hp
      · exact absurd hp (by simp)
      · rename_i hlong
        have hpart : q.text.contains '\x00' = false := by
          rw [← Bool.not_eq_true]
          exact fun hq => hzero (by simp_all [← hp'])
        rw [if_neg (by simpa using hne), hpart, if_neg (by simp), if_neg (by omega)]

theorem names_ofParts {parts : List Name} (hparts : ∀ part ∈ parts, '/' ∉ part) :
    (ofParts ['/'] parts).names = parts.filter fun part => !part.isEmpty := by
  have hnames : (ofParts ['/'] parts).names = names ⟨joinWith '/' parts⟩ := by
    change names ⟨[] ++ '/' :: joinWith '/' parts⟩ = _
    rw [names_append_slash, names_empty, List.nil_append]
  rw [hnames, names]
  by_cases hne : parts = []
  · rw [hne]
    rfl
  · rw [splitOn_joinWith hne hparts]

/-- One path is above another one if it starts in the same place and has the names at the front. -/
def IsAbove (up p : Path) : Prop := up.isAbsolute = p.isAbsolute ∧ up.names <+: p.names

theorem IsAbove.refl (p : Path) : p.IsAbove p := ⟨rfl, List.prefix_refl _⟩

theorem IsAbove.trans {p q r : Path} (hpq : p.IsAbove q) (hqr : q.IsAbove r) : p.IsAbove r :=
  ⟨hpq.1.trans hqr.1, hpq.2.trans hqr.2⟩

theorem isAbsolute_of_append {cs ds : List Char} (h : cs ≠ []) : isAbsolute ⟨cs ++ ds⟩ = isAbsolute ⟨cs⟩ := by
  obtain ⟨c, cs, rfl⟩ := List.exists_cons_of_ne_nil h
  rfl

theorem isAbove_append_slash {cs : List Char} (h : cs ≠ []) (ds : List Char) : IsAbove ⟨cs⟩ ⟨cs ++ '/' :: ds⟩ :=
  ⟨(isAbsolute_of_append h).symm, _, (names_append_slash cs ds).symm⟩

/-- A path has no lead, or a slash, or a dot that is all of it or has a slash behind it. -/
theorem exists_lead (p : Path) :
    (p.lead = [] ∧ p.isAbsolute = false) ∨ (∃ cs, p.lead = ['/'] ∧ p.text = '/' :: cs) ∨
      (p.lead = dot ∧ (p.text = dot ∨ ∃ cs, p.text = dot ++ '/' :: cs)) := by
  rw [lead]
  split
  · rename_i habs
    simp only [isAbsolute, decide_eq_true_eq] at habs
    obtain ⟨cs, hcs⟩ := List.head?_eq_some_iff.mp habs
    exact .inr (.inl ⟨cs, rfl, hcs⟩)
  · rename_i habs
    split
    · rename_i hdot
      obtain ⟨parts, hparts⟩ := List.head?_eq_some_iff.mp hdot
      have htext := joinWith_splitOn '/' p.text
      rw [hparts] at htext
      refine .inr (.inr ⟨rfl, ?_⟩)
      by_cases hp : parts = []
      · rw [hp] at htext
        exact .inl htext.symm
      · rw [joinWith_cons '/' dot hp] at htext
        exact .inr ⟨_, htext.symm⟩
    · exact .inl ⟨rfl, by simpa using habs⟩

theorem lead_prefix (p : Path) : p.lead <+: p.text := by
  rcases p.exists_lead with ⟨hl, -⟩ | ⟨cs, hl, ht⟩ | ⟨hl, ht | ⟨cs, ht⟩⟩
  · rw [hl]
    exact List.nil_prefix
  · rw [hl, ht]
    exact ⟨cs, rfl⟩
  · rw [hl]
    exact ht ▸ List.prefix_refl _
  · rw [hl, ht]
    exact List.prefix_append _ _

theorem text_eq (p : Path) : p.text = p.lead ++ joinWith '/' p.parts := by
  rw [parts, joinWith_splitOn]
  exact (List.prefix_iff_eq_append.mp p.lead_prefix).symm

theorem isAbove_lead {p : Path} (h : p.lead ≠ []) : IsAbove ⟨p.lead⟩ p := by
  rcases p with ⟨text⟩
  rcases exists_lead ⟨text⟩ with ⟨hl, -⟩ | ⟨cs, hl, ht⟩ | ⟨hl, ht | ⟨cs, ht⟩⟩
  · exact absurd hl h
  · dsimp only at ht
    rw [hl, ht]
    exact ⟨rfl, List.nil_prefix⟩
  · dsimp only at ht
    rw [hl, ht]
    exact IsAbove.refl _
  · dsimp only at ht
    rw [hl, ht]
    exact isAbove_append_slash (by decide) cs

theorem isAbove_ofParts {p : Path} {up : List Name} (h : up <+: p.parts) (hne : (ofParts p.lead up).text ≠ []) :
    (ofParts p.lead up).IsAbove p := by
  obtain ⟨rest, hrest⟩ := h
  by_cases hup : up = []
  · have htext : ofParts p.lead up = ⟨p.lead⟩ := by
      rw [ofParts, hup, joinWith, List.append_nil]
    rw [htext] at hne ⊢
    exact isAbove_lead hne
  · have htext := p.text_eq
    rw [← hrest] at htext
    by_cases hr : rest = []
    · rw [hr, List.append_nil] at htext
      have heq : ofParts p.lead up = p := by
        cases p
        exact congrArg Path.mk htext.symm
      rw [heq]
      exact IsAbove.refl p
    · rw [joinWith_append hup hr, ← List.append_assoc] at htext
      have heq : p = ⟨p.lead ++ joinWith '/' up ++ '/' :: joinWith '/' rest⟩ := by
        rw [← htext]
      have habove := isAbove_append_slash hne (joinWith '/' rest)
      rw [ofParts] at habove ⊢
      rw [← heq] at habove
      exact habove

theorem parentParts?_isPrefix {parts up : List Name} (h : parentParts? parts = some up) : up <+: parts := by
  simp only [parentParts?, Option.ite_none_left_eq_some, Option.some.injEq] at h
  obtain ⟨-, rfl⟩ := h
  exact (dropWhileEnd_isPrefix _ _).trans ((List.dropLast_prefix _).trans (dropWhileEnd_isPrefix _ _))

theorem filter_dropWhileEnd (p : α → Bool) (xs : List α) :
    (dropWhileEnd p xs).filter (fun x => !p x) = xs.filter fun x => !p x := by
  have hall := congrArg (List.filter fun x => !p x) (dropWhileEnd_append_takeWhile p xs)
  have hnone : ((xs.reverse.takeWhile p).reverse).filter (fun x => !p x) = [] := by
    rw [List.filter_eq_nil_iff]
    intro x hx
    simp [List.mem_takeWhile_imp (List.mem_reverse.mp hx)]
  rw [List.filter_append, hnone, List.append_nil] at hall
  exact hall

theorem of_getLast?_dropWhileEnd {p : α → Bool} {xs : List α} {x : α} (h : (dropWhileEnd p xs).getLast? = some x) :
    p x = false := by
  rw [dropWhileEnd, List.getLast?_reverse] at h
  have hnot := List.head?_dropWhile_not p xs.reverse
  rw [h] at hnot
  exact hnot

def telling (parts : List Name) : List Name := parts.filter fun part => !isSilent part

/-- The parts above lack the last one that says something, and end in one that does. -/
theorem parentParts?_eq_some {parts up : List Name} (h : parentParts? parts = some up) :
    (∀ n ∈ up.getLast?, isSilent n = false) ∧ ∃ n, telling parts = telling up ++ [n] := by
  simp only [parentParts?, List.isEmpty_iff, Option.ite_none_left_eq_some, Option.some.injEq] at h
  obtain ⟨hne, rfl⟩ := h
  refine ⟨fun n hn => of_getLast?_dropWhileEnd hn, (dropWhileEnd isSilent parts).getLast hne, ?_⟩
  have hlast := of_getLast?_dropWhileEnd (List.getLast?_eq_some_getLast hne)
  have hall := congrArg (List.filter fun part => !isSilent part) (List.dropLast_concat_getLast hne)
  rw [List.filter_append, List.filter_cons_of_pos (by simp [hlast]), List.filter_nil] at hall
  rw [telling, telling, filter_dropWhileEnd, ← filter_dropWhileEnd isSilent parts, hall]

theorem isAbove_of_parent? {p up : Path} (h : p.parent? = some up) (hne : up.text ≠ []) : up.IsAbove p := by
  rw [parent?] at h
  split at h
  · rename_i names hup
    rw [← Option.some.inj h] at hne ⊢
    exact isAbove_ofParts (parentParts?_isPrefix hup) hne
  · split at h
    · rw [← Option.some.inj h] at hne
      exact absurd rfl hne
    · exact absurd h (by simp)

theorem exists_of_mem_ancestorsOf {lead : List Char} {parts : List Name} {up : Path}
    (h : up ∈ ancestorsOf lead parts) : ∃ names, names <+: parts ∧ up = ofParts lead names := by
  induction parts using ancestorsOf.induct with
  | case1 parts names hnames ih =>
    rw [ancestorsOf, hnames] at h
    have hprefix := parentParts?_isPrefix hnames
    rcases List.mem_cons.mp h with rfl | h
    · exact ⟨names, hprefix, rfl⟩
    · obtain ⟨more, hmore, rfl⟩ := ih h
      exact ⟨more, hmore.trans hprefix, rfl⟩
  | case2 parts hnone =>
    rw [ancestorsOf, hnone] at h
    simp at h

theorem isAbove_of_mem_ancestors {p up : Path} (h : up ∈ p.ancestors) (hne : up.text ≠ []) : up.IsAbove p := by
  rcases List.mem_cons.mp h with rfl | h
  · exact IsAbove.refl _
  · obtain ⟨names, hnames, rfl⟩ := exists_of_mem_ancestorsOf h
    exact isAbove_ofParts hnames hne

def spoken (p : Path) : List Name := p.names.filter (· ≠ dot)

theorem filter_parts (p : Path) : (p.parts.filter fun part => !isSilent part) = p.spoken := by
  rw [spoken, names, List.filter_filter, parts]
  have hsilent : (fun part : Name => !isSilent part) = fun part => decide (part ≠ dot) && !part.isEmpty := by
    funext part
    simp [isSilent, Bool.and_comm]
  rw [← hsilent]
  rcases p.exists_lead with ⟨hl, -⟩ | ⟨cs, hl, ht⟩ | ⟨hl, ht | ⟨cs, ht⟩⟩
  · rw [hl]
    rfl
  · rw [hl, ht]
    rfl
  · rw [hl, ht]
    rfl
  · rw [hl, ht, splitOn_append_cons]
    rfl

/-- Only the root has no parent. -/
theorem spoken_of_parent?_eq_none {p : Path} (h : p.parent? = none) (htext : p.text ≠ []) :
    p.isAbsolute = true ∧ p.spoken = [] := by
  rw [parent?] at h
  split at h
  · exact absurd h (by simp)
  · rename_i hparts
    have hdot : p.lead ≠ dot := fun hdot => by simp [hdot] at h
    simp only [parentParts?, List.isEmpty_iff, ite_eq_left_iff, reduceCtorEq, imp_false, not_not] at hparts
    have hsilent : ∀ part ∈ p.parts, isSilent part = true := by
      rw [dropWhileEnd, List.reverse_eq_nil_iff, List.dropWhile_eq_nil_iff] at hparts
      exact fun part hpart => hparts part (List.mem_reverse.mpr hpart)
    refine ⟨?_, ?_⟩
    · by_contra habs
      obtain ⟨first, more, hfirst⟩ := List.exists_cons_of_ne_nil (splitOn_ne_nil '/' p.text)
      have hlead : p.lead = [] ∧ first ≠ dot := by
        rw [lead, if_neg habs, hfirst] at hdot ⊢
        have hne : first ≠ dot := fun heq => hdot (by simp [heq])
        simp [hne]
      have hempty : first = [] := by
        have hmem : first ∈ p.parts := by simp [parts, hlead.1, hfirst]
        simpa [isSilent, hlead.2] using hsilent first hmem
      have hjoin := joinWith_splitOn '/' p.text
      rw [hfirst, hempty] at hjoin
      by_cases hmore : more = []
      · rw [hmore] at hjoin
        exact htext hjoin.symm
      · rw [joinWith_cons '/' [] hmore] at hjoin
        exact habs (by simp [isAbsolute, ← hjoin])
    · rw [← filter_parts, List.filter_eq_nil_iff]
      intro part hpart
      simp [hsilent part hpart]

end Path

end Florin
