import Florin.Proofs.FileTree.Growing

/-! # Clearing a directory

Removing a path takes away the link at its end, or a directory with all that is below it. The directory itself
may be left behind if its path led through what is below it.
-/
namespace Florin.FileTree
open Florin.Path

variable {t u : FileTree} {p : Path} {l m place : Location} {n : Name} {e : Entry}

theorem Follows.entry_of_link {k : Nat} {here : Location} {steps : List Name}
    (h : t.Follows .link k here steps (.present l e)) (he : ∀ target, e ≠ .link target) :
    t.Follows .entry k here steps (.present l e) := by
  generalize hp : Place.present l e = place at h
  induction h with
  | arrive h => exact .arrive h
  | stay h hn _ ih => exact .stay h hn (ih hp)
  | leave h _ ih => exact .leave h (ih hp)
  | free h hn hfree => exact .free h hn hfree
  | link =>
    obtain ⟨-, rfl⟩ := Place.present.inj hp
    exact absurd rfl (he _)
  | through h hn _ hlink _ _ ih => exact .through h hn (by simp) hlink (by simp) (ih hp)
  | enter h hn _ hentry hlink _ ih => exact .enter h hn (by simp) hentry hlink (ih hp)

theorem lookup_eq_ok_iff {purpose : Purpose} {found : Place} : t.lookup purpose p = .ok found ↔
    p.fault? = none ∧ t.Follows purpose linkLimit (p.start t.current) p.steps found := by
  rw [lookup]
  cases hf : p.fault? with
  | some fault => simp
  | none => simp [follow_eq_ok_iff]

theorem find_of_lookup_link (h : t.lookup .link p = .ok (.present l .directory)) : t.find p = .ok (l, .directory) := by
  obtain ⟨hfault, hfollows⟩ := lookup_eq_ok_iff.mp h
  exact find_eq_ok_iff.mpr ⟨hfault, hfollows.entry_of_link (by simp)⟩

/-- The later tree has nothing below a place, and elsewhere all that was there; the place itself may be gone. -/
structure Cleared (t u : FileTree) (place : Location) : Prop where
  remains : t.Remains u place
  below : ∀ l, place <+: l → l ≠ place → u.entry? l = none
  part : ∀ top, Apart top place → u.part top = t.part top
  wellFormed : u.WellFormed

theorem WellFormed.cleared_eraseBelow (wf : t.WellFormed) (place : Location) :
    t.Cleared (t.eraseBelow place) place where
  remains :=
    { current := rfl
      within := fun l e hl => by
        rw [entry?_eraseBelow] at hl
        split at hl
        · exact absurd hl (by simp)
        · exact hl
      outside := fun l hl => by
        rw [entry?_eraseBelow, if_neg]
        rw [isBelow_iff]
        exact fun hbelow => hl hbelow.1 }
  below l hl hne := by
    rw [entry?_eraseBelow, if_pos (isBelow_iff.mpr ⟨hl, hne⟩)]
  part _ htop := part_eraseBelow htop
  wellFormed := wf.eraseBelow place

theorem Cleared.erase (h : t.Cleared u place) (hne : place ≠ []) : t.Cleared (u.erase place) place where
  remains :=
    { current := h.remains.current
      within := fun l e hl => by
        rw [entry?_erase u hne] at hl
        split at hl
        · exact absurd hl (by simp)
        · exact h.remains.within l e hl
      outside := fun l hl => by
        rw [entry?_erase u hne, if_neg]
        · exact h.remains.outside l hl
        · rintro rfl
          exact hl (List.prefix_refl _) }
  below l hl hlne := by
    rw [entry?_erase u hne, if_neg hlne]
    exact h.below l hl hlne
  part top htop := (part_erase htop.1).trans (h.part top htop)
  wellFormed := h.wellFormed.erase hne fun n => h.below _ (List.prefix_append _ _) (by simp)

theorem Remains.of_removeDirectory {v : FileTree} (h : t.Remains u place)
    (hfind : t.find p = .ok (place, .directory)) (hremove : u.removeDirectory p = .ok v) :
    place ≠ [] ∧ v = u.erase place := by
  rw [removeDirectory] at hremove
  split at hremove
  · exact absurd hremove (by simp)
  · rename_i l n hslot
    split at hremove
    · exact absurd hremove (by simp)
    · rename_i hdot
      split at hremove
      · exact absurd hremove (by simp)
      · rename_i hdots
        split at hremove
        · exact absurd hremove (by simp)
        · rename_i hdir
          split at hremove
          · rcases slot_eq_ok hslot with hn | ⟨front, hnames, hfault, hshort, hfront⟩
            · exact absurd hn hdot
            · have hn := proper_of_names hnames hdot hdots hshort
              have hfound : u.find p = .ok (l ++ [n], .directory) := by
                refine find_of_follows_names hfault (follows_of_follow ?_)
                obtain ⟨j, -, hfollow⟩ := hfront.follow_append
                rw [hnames]
                refine (hfollow .entry [n] (.inl rfl)).trans (follow_of_follows ?_)
                exact .enter hfront.entry?_eq hn.toWord (by simp) hdir (by simp) (.arrive hdir)
              -- What the path leads to now it led to before, and that is the place.
              have hfollows := h.keeps.follows_directory (follows_names_of_find hfound)
              rw [h.current] at hfollows
              obtain ⟨rfl, -⟩ := Place.present.inj (hfollows.unique (follows_names_of_find hfind))
              exact ⟨by simp, (Except.ok.inj hremove).symm⟩
          · exact absurd hremove (by simp)
        · exact absurd hremove (by simp)

/-- Removing a path changes nothing, or takes the link at its end, or clears the directory it leads to. -/
theorem ends_removeAll (wf : t.WellFormed) (p : Path) : Ends (Disk.removeAll p) t fun r u =>
    u = t ∧ r ≠ .ok () ∨
    (∃ l target, t.lookup .link p = .ok (.present l (.link target)) ∧ u = t.erase l) ∨
    ∃ l, t.lookup .link p = .ok (.present l .directory) ∧ t.Cleared u l := by
  rw [Disk.removeAll, ends_bind, ends_get]
  dsimp only
  split
  · exact .inl ⟨rfl, by simp⟩
  · exact .inl ⟨rfl, by simp⟩
  · rename_i l target hlookup
    exact .inr (.inl ⟨l, target, hlookup, rfl⟩)
  · exact .inl ⟨rfl, by simp⟩
  · rename_i l hlookup
    have hcleared := wf.cleared_eraseBelow l
    have hfind := find_of_lookup_link hlookup
    refine Ends.mono (Q := fun _ u => t.Cleared u l) ?_ fun r u hu => .inr (.inr ⟨l, hlookup, hu⟩)
    rw [ends_bind, ends_modify]
    dsimp only
    rw [ends_bind, ends_get]
    dsimp only
    split
    · rename_i u hremove
      obtain ⟨hne, rfl⟩ := hcleared.remains.of_removeDirectory hfind hremove
      exact hcleared.erase hne
    · exact hcleared
    · exact hcleared

end Florin.FileTree
