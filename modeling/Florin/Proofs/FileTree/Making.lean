import Florin.FileTree.Disk
import Florin.Proofs.Effects
import Florin.Proofs.FileTree.Following

/-! # Making directories

A directory is made under a free name of a directory that is there. Making all directories of a path changes
no more than that, and if it succeeds the path leads to a directory.
-/
namespace Florin.FileTree
open Florin.Path

variable {t u : FileTree} {p up : Path} {l : Location} {n : Name} {e : Entry} {bytes : ByteArray}

theorem find_eq_ok_iff : t.find p = .ok (l, e) ↔
    p.fault? = none ∧ t.Follows .entry linkLimit (p.start t.current) p.steps (.present l e) := by
  rw [find, lookup]
  cases hf : p.fault? with
  | some fault => simp
  | none =>
    rw [← follow_eq_ok_iff]
    dsimp only
    cases h : t.follow .entry linkLimit (p.start t.current) p.steps with
    | error fault => simp
    | ok place => cases place <;> simp

theorem isDirectory_iff : t.isDirectory p = true ↔ ∃ l, t.find p = .ok (l, .directory) := by
  rw [isDirectory]
  cases h : t.find p with
  | error fault => simp
  | ok found =>
    obtain ⟨l, e⟩ := found
    cases e <;> simp [Entry.isDirectory]

theorem follows_names_of_find (h : t.find p = .ok (l, e)) :
    t.Follows .entry linkLimit (p.start t.current) p.names (.present l e) := by
  obtain ⟨-, hfollows⟩ := find_eq_ok_iff.mp h
  rw [steps] at hfollows
  obtain ⟨m, e', hnames⟩ := hfollows.exists_front (.inl rfl) (by simp)
  obtain ⟨j, -, hslash⟩ := hfollows.append (.inl rfl) hnames
  split at hslash
  · cases hslash with
    | stay h hn hrest =>
      cases hrest with
      | arrive hrest =>
        obtain rfl := Option.some.inj (hnames.entry?_eq.symm.trans hrest)
        exact hnames
    | link _ hn => exact absurd rfl hn.ne_nil
    | enter _ hn => exact absurd rfl hn.ne_nil
    | through _ hn => exact absurd rfl hn.ne_nil
  · cases hslash with
    | arrive hrest =>
      obtain rfl := Option.some.inj (hnames.entry?_eq.symm.trans hrest)
      exact hnames

/-- The names of a path that lead to a directory do so with or without a slash at the end. -/
theorem find_of_follows_names (hfault : p.fault? = none)
    (h : t.Follows .entry linkLimit (p.start t.current) p.names (.present l .directory)) :
    t.find p = .ok (l, .directory) := by
  refine find_eq_ok_iff.mpr ⟨hfault, follows_of_follow ?_⟩
  obtain ⟨j, -, hfollow⟩ := h.follow_append
  rw [steps, hfollow .entry _ (.inl rfl)]
  split
  · rw [follow_stay h.entry?_eq rfl, follow_nil h.entry?_eq]
  · exact follow_nil h.entry?_eq

theorem Follows.of_dot {k : Nat} {here : Location} {front : List Name} {place : Place}
    (h : t.Follows .entry k here (front ++ [dot]) place) :
    ∃ l, place = .present l .directory ∧ t.Follows .entry k here front (.present l .directory) := by
  obtain ⟨l, e, hfront⟩ := h.exists_front (.inl rfl) (by simp)
  obtain ⟨j, -, hdot⟩ := h.append (.inl rfl) hfront
  cases hdot with
  | stay hdir _ hrest =>
    cases hrest with
    | arrive hl =>
      obtain rfl := Option.some.inj (hdir.symm.trans hl)
      obtain rfl := Option.some.inj (hfront.entry?_eq.symm.trans hdir)
      exact ⟨l, rfl, hfront⟩
  | link _ hn => exact absurd rfl hn.ne_dot
  | free _ hn => exact absurd rfl hn.ne_dot
  | enter _ hn => exact absurd rfl hn.ne_dot
  | through _ hn => exact absurd rfl hn.ne_dot

/-- The slot of a path is the last name in the directory that the other names lead to. -/
theorem slot_eq_ok (h : t.slot p = .ok (l, n)) : n = dot ∨
    ∃ front, p.names = front ++ [n] ∧ p.fault? = none ∧ Text.byteLength n ≤ 255 ∧
      t.Follows .entry linkLimit (p.start t.current) front (.present l .directory) := by
  rw [slot] at h
  split at h
  · exact absurd h (by simp)
  · rename_i hfault
    split at h
    · obtain ⟨-, rfl⟩ := Prod.mk.inj (Except.ok.inj h)
      exact .inl rfl
    · rename_i n' hlast
      obtain ⟨front, hnames⟩ := List.getLast?_eq_some_iff.mp hlast
      rw [hnames, List.dropLast_concat] at h
      split at h
      · exact absurd h (by simp)
      · rename_i place hfollow
        split at h
        · exact absurd h (by simp)
        · rename_i hshort
          obtain ⟨rfl, rfl⟩ := Prod.mk.inj (Except.ok.inj h)
          obtain ⟨l, rfl, hfront⟩ := (follows_of_follow hfollow).of_dot
          exact .inr ⟨front, hnames, hfault, Nat.not_lt.mp hshort, hfront⟩

theorem proper_of_names {front : List Name} (hnames : p.names = front ++ [n]) (hdot : n ≠ dot) (hdots : n ≠ dots)
    (hshort : Text.byteLength n ≤ 255) : Proper n := by
  have hmem : n ∈ p.names := by simp [hnames]
  exact ⟨⟨ne_nil_of_mem_names hmem, hdot, hdots, hshort⟩, no_slash_of_mem_names hmem⟩

/-- A directory is made in a directory, under a name that is free there. -/
structure Makes (t : FileTree) (p : Path) (l : Location) (n : Name) (front : List Name) : Prop where
  names : p.names = front ++ [n]
  proper : Proper n
  fault : p.fault? = none
  follows : t.Follows .entry linkLimit (p.start t.current) front (.present l .directory)
  free : t.entry? (l ++ [n]) = none

theorem makeDirectory_eq_ok (h : t.makeDirectory p = .ok u) :
    ∃ front l n, t.Makes p l n front ∧ u = t.put (l ++ [n]) .directory := by
  rw [makeDirectory] at h
  split at h
  · exact absurd h (by simp)
  · rename_i l n hslot
    split at h
    · exact absurd h (by simp)
    · rename_i hname
      simp only [Bool.or_eq_true, decide_eq_true_eq, Bool.not_eq_true', not_or, Bool.not_eq_false] at hname
      obtain ⟨⟨hdot, hdots⟩, hfree⟩ := hname
      rcases slot_eq_ok hslot with rfl | ⟨front, hnames, hfault, hshort, hfront⟩
      · exact absurd rfl hdot
      · exact ⟨front, l, n, ⟨hnames, proper_of_names hnames hdot hdots hshort, hfault, hfront,
          Option.isNone_iff_eq_none.mp hfree⟩, (Except.ok.inj h).symm⟩

namespace Makes

variable {front : List Name}

theorem keeps (h : t.Makes p l n front) (e : Entry) : t.Keeps (t.put (l ++ [n]) e) where
  current := rfl
  entry? m e' hm := by
    refine ⟨e', ?_, .refl e'⟩
    rw [entry?_put t e (by simp), if_neg]
    · exact hm
    · rintro rfl
      exact absurd (h.free.symm.trans hm) (by simp)

theorem wellFormed (h : t.Makes p l n front) (wf : t.WellFormed) : (t.put (l ++ [n]) .directory).WellFormed :=
  wf.put h.follows.entry?_eq h.proper (by simp [h.free])

theorem find (h : t.Makes p l n front) :
    (t.put (l ++ [n]) .directory).find p = .ok (l ++ [n], .directory) := by
  have hfront := (h.keeps .directory).follows_directory h.follows
  have hmade : entry? (t.put (l ++ [n]) .directory) (l ++ [n]) = some .directory := by
    rw [entry?_put t _ (by simp), if_pos rfl]
  refine find_of_follows_names h.fault (follows_of_follow ?_)
  obtain ⟨j, -, hfollow⟩ := hfront.follow_append
  rw [h.names]
  refine (hfollow .entry [n] (.inl rfl)).trans (follow_of_follows ?_)
  exact .enter hfront.entry?_eq h.proper.toWord (by simp) hmade (by simp) (.arrive hmade)

theorem not_follows {k : Nat} {m : Location} (h : t.Makes p l n front) :
    ¬ t.Follows .entry k l [n] (.present m e) := by
  intro hlast
  cases hlast with
  | stay _ hn => exact absurd hn (by simp [h.proper.not_silent])
  | leave => exact h.proper.ne_dots rfl
  | link _ _ hlink => exact absurd (h.free.symm.trans hlink) (by simp)
  | through _ _ _ hlink => exact absurd (h.free.symm.trans hlink) (by simp)
  | enter _ _ _ hentry => exact absurd (h.free.symm.trans hentry) (by simp)

end Makes

end Florin.FileTree

namespace Florin.Disk
open FileTree

variable {t : FileTree} {p : Path} {paths : List Path}

theorem ends_makeUnlessPresent {I : FileTree → Prop} (hstep : ∀ t u, I t → t.makeDirectory p = .ok u → I u) (h : I t) :
    Ends (makeUnlessPresent p) t fun r u => I u ∧ (r = .ok () → u.isDirectory p = true) := by
  rw [makeUnlessPresent, ends_bind, ends_get]
  dsimp only
  split
  · rename_i u hmade
    refine ⟨hstep t u h hmade, fun _ => ?_⟩
    obtain ⟨front, l, n, hmakes, rfl⟩ := makeDirectory_eq_ok hmade
    exact isDirectory_iff.mpr ⟨_, hmakes.find⟩
  · split
    · exact ⟨h, fun hok => absurd hok (by simp)⟩
    · rename_i hdir
      refine ⟨h, fun _ => ?_⟩
      show t.isDirectory p = true
      simpa using hdir
  · exact ⟨h, fun hok => absurd hok (by simp)⟩

/-- What the making of each directory keeps is kept; the paths that lack their parents come first. -/
theorem ends_makeFirst {I : FileTree → Prop}
    (hstep : ∀ p ∈ paths, p.text ≠ [] → ∀ t u, I t → t.makeDirectory p = .ok u → I u) (h : I t) :
    Ends (makeFirst paths) t fun r u => I u ∧ ∀ missing, r = .ok missing →
      missing <+: paths ∧ (∀ p ∈ missing, p.text ≠ []) ∧
        (missing = [] → ∀ p ∈ paths.head?, p.text ≠ [] → p.parent? ≠ none → u.isDirectory p = true) := by
  induction paths with
  | nil =>
    refine ⟨h, fun missing hmissing => ?_⟩
    obtain rfl := Except.ok.inj hmissing
    exact ⟨List.prefix_refl _, by simp, by simp⟩
  | cons p up ih =>
    rw [makeFirst]
    split
    · -- The walk up ends here: the path is empty, or there is nothing above it.
      rename_i hend
      refine ⟨h, fun missing hmissing => ?_⟩
      obtain rfl := Except.ok.inj hmissing
      refine ⟨List.nil_prefix, by simp, fun _ q hq htext hparent => ?_⟩
      obtain rfl := Option.mem_some.mp hq
      simp [htext, hparent] at hend
    · rename_i hgo
      have htext : p.text ≠ [] := fun htext => hgo (by simp [htext])
      rw [ends_bind, ends_get]
      dsimp only
      split
      · rename_i u hmade
        refine ⟨hstep p List.mem_cons_self htext t u h hmade, fun missing hmissing => ?_⟩
        obtain rfl := Except.ok.inj hmissing
        refine ⟨List.nil_prefix, by simp, fun _ q hq _ _ => ?_⟩
        obtain rfl := Option.mem_some.mp hq
        obtain ⟨front, l, n, hmakes, rfl⟩ := makeDirectory_eq_ok hmade
        exact isDirectory_iff.mpr ⟨_, hmakes.find⟩
      · -- Its parent is not there, so the path is left for later, and so may be some of those above it.
        rw [ends_bind]
        refine (ih fun q hq => hstep q (List.mem_cons_of_mem p hq)).mono fun r u hu => ?_
        cases r with
        | error fault => exact ⟨hu.1, fun missing hmissing => absurd hmissing (by simp)⟩
        | ok more =>
          refine ⟨hu.1, fun missing hmissing => ?_⟩
          obtain rfl := Except.ok.inj hmissing
          obtain ⟨hfront, hne, -⟩ := hu.2 more rfl
          refine ⟨(List.prefix_cons_inj p).mpr hfront, ?_, by simp⟩
          simpa [htext] using hne
      · split
        · rename_i hdir
          refine ⟨h, fun missing hmissing => ?_⟩
          obtain rfl := Except.ok.inj hmissing
          refine ⟨List.nil_prefix, by simp, fun _ q hq _ _ => ?_⟩
          obtain rfl := Option.mem_some.mp hq
          exact hdir
        · exact ⟨h, fun missing hmissing => absurd hmissing (by simp)⟩
      · exact ⟨h, fun missing hmissing => absurd hmissing (by simp)⟩

/-- What the making of each directory on the way keeps is kept, and if all are made the path leads to one. -/
theorem ends_makeDirectories (I : FileTree → Prop)
    (hstep : ∀ up ∈ p.ancestors, up.text ≠ [] → ∀ t u, I t → t.makeDirectory up = .ok u → I u) (h : I t) :
    Ends (makeDirectories p) t fun r u => I u ∧
      (r = .ok () → p.text ≠ [] → p.parent? ≠ none → u.isDirectory p = true) := by
  rw [makeDirectories]
  split
  · rename_i hend
    refine ⟨h, fun _ htext hparent => ?_⟩
    simp [htext, hparent] at hend
  · rw [ends_bind]
    refine (ends_makeFirst hstep h).mono fun r u hu => ?_
    cases r with
    | error fault => exact ⟨hu.1, fun hok => absurd hok (by simp)⟩
    | ok missing =>
      obtain ⟨hfront, hne, hnone⟩ := hu.2 missing rfl
      have hmembers : ∀ q ∈ missing.reverse, ∀ t, I t →
          Ends (makeUnlessPresent q) t fun r u => I u ∧ (r = .ok () → u.isDirectory q = true) := by
        intro q hq t ht
        have hmem := List.mem_reverse.mp hq
        exact ends_makeUnlessPresent (hstep q (hfront.subset hmem) (hne q hmem)) ht
      refine Ends.and (ends_forM I (fun q hq t ht => (hmembers q hq t ht).mono fun _ _ h => h.1) hu.1) ?_
      cases missing with
      | nil => exact fun _ htext hparent => hnone rfl p rfl htext hparent
      | cons q more =>
        obtain ⟨rfl, -⟩ := List.cons_prefix_cons.mp hfront
        refine Ends.mono (yields_forM (fun front u => I u ∧ ∀ q ∈ front.getLast?, u.isDirectory q = true)
          (fun front x rest hxs t ht => ?_) ⟨hu.1, by simp⟩) fun r u hu hok _ _ => (hu () hok).2 q (by simp)
        have hmem : x ∈ (q :: more).reverse := by simp [hxs]
        exact (hmembers x hmem t ht.1).mono fun r u hu _ hok => ⟨hu.1, by simpa using hu.2 hok⟩

end Florin.Disk
