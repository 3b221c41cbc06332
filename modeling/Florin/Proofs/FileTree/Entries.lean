import Florin.FileTree.Files
import Florin.Proofs.FileTree.Names
import Mathlib.Data.List.Infix

/-! # Entries of a file tree

What is at a location after an entry was put or erased. In a well-formed tree the locations are distinct, made
of proper names, and below directories only.
-/
namespace Florin.FileTree

variable {t u : FileTree} {l m top : Location} {n : Name} {e : Entry}

theorem lookup_filter {α β : Type} [BEq α] [LawfulBEq α] (p : α → Bool) (xs : List (α × β)) (a : α) :
    (xs.filter fun x => p x.1).lookup a = if p a then xs.lookup a else none := by
  induction xs with
  | nil => simp
  | cons x xs ih =>
    obtain ⟨b, v⟩ := x
    by_cases hab : a = b
    · subst hab
      by_cases hp : p a <;> simp [hp, ih]
    · have hb : (a == b) = false := by simpa using hab
      by_cases hp : p b
      · rw [List.filter_cons, if_pos hp, List.lookup_cons, List.lookup_cons, hb]
        exact ih
      · rw [List.filter_cons, if_neg hp, List.lookup_cons, hb]
        exact ih

theorem lookup_of_mem {α β : Type} [BEq α] [LawfulBEq α] {xs : List (α × β)} {a : α} {b : β}
    (hunique : (xs.map Prod.fst).Nodup) (h : (a, b) ∈ xs) : xs.lookup a = some b := by
  obtain ⟨front, rest, rfl⟩ := List.append_of_mem h
  rw [List.lookup_eq_some_iff]
  refine ⟨front, rest, rfl, ?_⟩
  intro x hx
  rw [List.map_append, List.nodup_append] at hunique
  have hne := hunique.2.2 x.1 (List.mem_map_of_mem hx) a (by simp)
  simpa using Ne.symm hne

@[simp] theorem entry?_nil (t : FileTree) : t.entry? [] = some .directory := rfl

theorem entry?_of_ne_nil (t : FileTree) (h : l ≠ []) : t.entry? l = t.entries.lookup l := by
  simp [h, entry?]

theorem entry?_put (t : FileTree) (e : Entry) (h : l ≠ []) (m : Location) :
    entry? (t.put l e) m = if m = l then some e else t.entry? m := by
  by_cases hm : m = []
  · rw [hm, if_neg (Ne.symm h)]
    rfl
  · rw [entry?_of_ne_nil _ hm, entry?_of_ne_nil _ hm, put]
    by_cases hml : m = l
    · simp [hml]
    · have hb : (m == l) = false := by simpa using hml
      rw [List.lookup_cons, hb, lookup_filter fun x => decide (x ≠ l)]
      simp [hml]

theorem entry?_erase (t : FileTree) (h : l ≠ []) (m : Location) :
    entry? (t.erase l) m = if m = l then none else t.entry? m := by
  by_cases hm : m = []
  · rw [hm, if_neg (Ne.symm h)]
    rfl
  · rw [entry?_of_ne_nil _ hm, entry?_of_ne_nil _ hm, erase, lookup_filter fun x => decide (x ≠ l)]
    by_cases hml : m = l <;> simp [hml]

theorem isBelow_iff : isBelow m l = true ↔ l <+: m ∧ m ≠ l := by
  simp [isBelow]

theorem entry?_eraseBelow (t : FileTree) (l m : Location) :
    entry? (t.eraseBelow l) m = if isBelow m l then none else t.entry? m := by
  by_cases hm : m = []
  · have hnot : ¬ isBelow [] l = true := by
      rw [isBelow_iff, List.prefix_nil]
      rintro ⟨rfl, h⟩
      exact h rfl
    rw [hm, if_neg hnot]
    rfl
  · rw [entry?_of_ne_nil _ hm, entry?_of_ne_nil _ hm, eraseBelow, lookup_filter fun x => !isBelow x l]
    cases isBelow m l <;> simp

/-- The locations are distinct, made of proper names, and below directories. -/
structure WellFormed (t : FileTree) : Prop where
  unique : (t.entries.map Prod.fst).Nodup
  proper : ∀ x ∈ t.entries, x.1 ≠ [] ∧ ∀ n ∈ x.1, Path.Proper n
  parents : ∀ l n, t.entry? (l ++ [n]) ≠ none → t.entry? l = some .directory

theorem mem_entries_of_entry?_eq (hne : l ≠ []) (h : t.entry? l = some e) : (l, e) ∈ t.entries := by
  rw [entry?_of_ne_nil t hne] at h
  obtain ⟨front, rest, heq, -⟩ := List.lookup_eq_some_iff.mp h
  simp [heq]

theorem any_isDirectory : (t.entry? l).any Entry.isDirectory = true ↔ t.entry? l = some .directory := by
  cases h : t.entry? l with
  | none => simp
  | some e => cases e <;> simp [Entry.isDirectory]

namespace WellFormed

theorem entry?_of_mem (wf : t.WellFormed) (h : (l, e) ∈ t.entries) : t.entry? l = some e := by
  rw [entry?_of_ne_nil t (wf.proper _ h).1]
  exact lookup_of_mem wf.unique h

theorem names (wf : t.WellFormed) (h : t.entry? l ≠ none) : ∀ n ∈ l, Path.Proper n := by
  by_cases hl : l = []
  · simp [hl]
  · obtain ⟨e, he⟩ := Option.ne_none_iff_exists'.mp h
    exact (wf.proper _ (mem_entries_of_entry?_eq hl he)).2

theorem dropLast (wf : t.WellFormed) (h : t.entry? l ≠ none) : t.entry? l.dropLast = some .directory := by
  rcases List.eq_nil_or_concat' l with rfl | ⟨m, n, rfl⟩
  · rfl
  · rw [List.dropLast_concat]
    exact wf.parents m n h

theorem directory (wf : t.WellFormed) (h : t.entry? m ≠ none) (hl : l <+: m) (hne : l ≠ m) :
    t.entry? l = some .directory := by
  obtain ⟨rest, rfl⟩ := hl
  induction rest using List.reverseRecOn with
  | nil => simp at hne
  | append_singleton rest n ih =>
    rw [← List.append_assoc] at h
    have hparent := wf.parents _ _ h
    by_cases hrest : rest = []
    · simpa [hrest] using hparent
    · exact ih (by simp [hparent]) (by simpa using hrest)

theorem entry?_eq_none (wf : t.WellFormed) (h : t.entry? l = none) (hl : l <+: m) : t.entry? m = none := by
  by_contra hm
  by_cases hne : l = m
  · exact hm (hne ▸ h)
  · exact absurd (h.symm.trans (wf.directory hm hl hne)) (by simp)

theorem mem_children (wf : t.WellFormed) : (n, e) ∈ t.children l ↔ t.entry? (l ++ [n]) = some e := by
  rw [children, List.mem_mergeSort, List.mem_filterMap]
  constructor
  · rintro ⟨⟨m, e'⟩, hmem, h⟩
    split at h
    · rename_i hm
      obtain ⟨n', hn', h⟩ := Option.map_eq_some_iff.mp h
      obtain ⟨rfl, rfl⟩ := Prod.mk.inj h
      obtain ⟨front, rfl⟩ := List.getLast?_eq_some_iff.mp hn'
      rw [List.dropLast_concat] at hm
      rw [← hm]
      exact wf.entry?_of_mem hmem
    · exact absurd h (by simp)
  · intro h
    exact ⟨(l ++ [n], e), mem_entries_of_entry?_eq (by simp) h, by simp⟩

theorem proper_of_mem_children (wf : t.WellFormed) (h : (n, e) ∈ t.children l) : Path.Proper n := by
  have hentry := wf.mem_children.mp h
  exact wf.names (by rw [hentry]; exact Option.some_ne_none e) n (by simp)

theorem put (wf : t.WellFormed) (hl : t.entry? l = some .directory) (hn : Path.Proper n)
    (hfree : t.entry? (l ++ [n]) ≠ some .directory) : (t.put (l ++ [n]) e).WellFormed where
  unique := by
    rw [FileTree.put, List.map_cons, List.nodup_cons]
    exact ⟨by simp, wf.unique.sublist (List.filter_sublist.map _)⟩
  proper := by
    intro x hx
    rcases List.mem_cons.mp hx with rfl | hx
    · refine ⟨by simp, ?_⟩
      intro m hm
      rcases List.mem_append.mp hm with hm | hm
      · exact wf.names (by simp [hl]) m hm
      · rw [List.mem_singleton.mp hm]
        exact hn
    · exact wf.proper x (List.mem_filter.mp hx).1
  parents := by
    intro k m hk
    rw [entry?_put t e (by simp)] at hk ⊢
    split at hk
    · rename_i heq
      obtain ⟨rfl, -⟩ := List.append_inj' heq rfl
      rw [if_neg (by simp)]
      exact hl
    · have hparent := wf.parents k m hk
      rw [if_neg]
      · exact hparent
      · rintro rfl
        exact hfree hparent

theorem erase (wf : t.WellFormed) (hne : l ≠ []) (hl : ∀ n, t.entry? (l ++ [n]) = none) :
    (t.erase l).WellFormed where
  unique := wf.unique.sublist (List.filter_sublist.map _)
  proper x hx := wf.proper x (List.mem_filter.mp hx).1
  parents := by
    intro k m hk
    rw [entry?_erase t hne] at hk ⊢
    split at hk
    · exact absurd rfl hk
    · rw [if_neg]
      · exact wf.parents k m hk
      · rintro rfl
        exact hk (hl m)

theorem eraseBelow (wf : t.WellFormed) (l : Location) : (t.eraseBelow l).WellFormed where
  unique := wf.unique.sublist (List.filter_sublist.map _)
  proper x hx := wf.proper x (List.mem_filter.mp hx).1
  parents := by
    intro k m hk
    rw [entry?_eraseBelow] at hk ⊢
    split at hk
    · exact absurd rfl hk
    · rename_i hnot
      have hk' : ¬ isBelow k l = true := by
        rw [isBelow_iff] at hnot ⊢
        rintro ⟨hl, hne⟩
        refine hnot ⟨hl.trans (List.prefix_append _ _), ?_⟩
        intro heq
        have hle := hl.length_le
        rw [← heq, List.length_append, List.length_singleton] at hle
        omega
      rw [if_neg hk']
      exact wf.parents k m hk

/-- It is enough to look at the entries that are there. -/
theorem of_entries (hunique : (t.entries.map Prod.fst).Nodup)
    (hproper : ∀ x ∈ t.entries, x.1 ≠ [] ∧ ∀ n ∈ x.1, Path.Proper n)
    (hparents : ∀ x ∈ t.entries, (t.entry? x.1.dropLast).any Entry.isDirectory = true) : t.WellFormed where
  unique := hunique
  proper := hproper
  parents l n h := by
    obtain ⟨e, he⟩ := Option.ne_none_iff_exists'.mp h
    have hparent := hparents _ (mem_entries_of_entry?_eq (by simp) he)
    rw [List.dropLast_concat] at hparent
    exact any_isDirectory.mp hparent

end WellFormed

/-- Neither of two locations is above the other one. -/
def Apart (l m : Location) : Prop := ¬ l <+: m ∧ ¬ m <+: l

/-- What a tree holds at a location and below it. -/
def part (t : FileTree) (top : Location) : List (Location × Entry) := t.entries.filter fun x => top.isPrefixOf x.1

theorem isPrefixOf_eq_false (h : ¬ top <+: l) : top.isPrefixOf l = false := by
  rw [← Bool.not_eq_true, List.isPrefixOf_iff_prefix]
  exact h

theorem part_put (e : Entry) (h : ¬ top <+: l) : (t.put l e).part top = t.part top := by
  have htop := isPrefixOf_eq_false h
  rw [part, FileTree.put, List.filter_cons, if_neg (by simp [htop]), List.filter_filter, part]
  refine List.filter_congr fun x hx => ?_
  by_cases hxl : x.1 = l
  · rw [hxl, htop, Bool.false_and]
  · simp [hxl]

theorem part_erase (h : ¬ top <+: l) : (t.erase l).part top = t.part top := by
  have htop := isPrefixOf_eq_false h
  rw [part, FileTree.erase, List.filter_filter, part]
  refine List.filter_congr fun x hx => ?_
  by_cases hxl : x.1 = l
  · rw [hxl, htop, Bool.false_and]
  · simp [hxl]

theorem part_eraseBelow (h : Apart top l) : (t.eraseBelow l).part top = t.part top := by
  rw [part, FileTree.eraseBelow, List.filter_filter, part]
  refine List.filter_congr fun x hx => ?_
  cases hx : top.isPrefixOf x.1 with
  | false => rfl
  | true =>
    have hbelow : isBelow x.1 l = false := by
      rw [← Bool.not_eq_true, isBelow_iff]
      rintro ⟨hxl, -⟩
      exact (List.prefix_or_prefix_of_prefix (List.isPrefixOf_iff_prefix.mp hx) hxl).elim h.1 h.2
    rw [hbelow]
    rfl

theorem entry?_of_part (h : t.part top = u.part top) (hl : top <+: l) : t.entry? l = u.entry? l := by
  by_cases hne : l = []
  · rw [hne]
    rfl
  · have hlookup (v : FileTree) : (v.part top).lookup l = v.entries.lookup l := by
      rw [part, lookup_filter fun x => top.isPrefixOf x]
      simp [hl]
    rw [entry?_of_ne_nil t hne, entry?_of_ne_nil u hne, ← hlookup, ← hlookup, h]

theorem children_of_part (h : t.part top = u.part top) (hl : top <+: l) : t.children l = u.children l := by
  have hchildren (v : FileTree) : v.children l = ((v.part top).filterMap fun x =>
      if x.1.dropLast = l then x.1.getLast?.map fun n => (n, x.2) else none).mergeSort
        fun a b => Path.inOrder a.1 b.1 := by
    rw [part, List.filterMap_filter, children]
    refine congrArg (List.mergeSort · _) (List.filterMap_congr fun x hx => ?_)
    by_cases hx : x.1.dropLast = l
    · have htop : top.isPrefixOf x.1 = true := by
        simpa using (hl.trans (hx ▸ List.dropLast_prefix _) : top <+: x.1)
      rw [if_pos htop]
    · simp [hx]
  rw [hchildren t, hchildren u, h]

end Florin.FileTree
