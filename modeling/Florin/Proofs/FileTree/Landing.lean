import Florin.Proofs.FileTree.Following

/-! # Where names come to lead

Names come to lead to one location once all that is missing on their way is made. The links of the tree alone decide on
it, so it stays what it is as long as no link is made or removed.
-/
namespace Florin.FileTree
open Florin.Path

variable {t u : FileTree} {purpose : Purpose} {k : Nat} {here l m place : Location} {n : Name}
  {steps front rest : List Name} {found : Place}

/-- Follows names, through at most so many links, and enters whatever is missing. -/
def landing (t : FileTree) (links : Nat) (here : Location) (steps : List Name) : Option Location :=
  match steps with
  | [] => some here
  | n :: rest =>
    if isSilent n then t.landing links here rest
    else if n = dots then t.landing links here.dropLast rest
    else
      match t.entry? (here ++ [n]) with
      | some (.link target) =>
        match links with
        | 0 => none
        | links + 1 => t.landing links (target.start here) (target.steps ++ rest)
      | _ => t.landing links (here ++ [n]) rest
termination_by (links, steps.length)

/-- The two trees have the same links. -/
def SameLinks (t u : FileTree) : Prop := ∀ l target, t.entry? l = some (.link target) ↔ u.entry? l = some (.link target)

theorem landing_silent (hn : isSilent n = true) : t.landing k here (n :: rest) = t.landing k here rest := by
  rw [landing, if_pos hn]

theorem landing_dots : t.landing k here (dots :: rest) = t.landing k here.dropLast rest := by
  rw [landing, if_neg (by decide), if_pos rfl]

theorem landing_link {target : Path} (hsilent : isSilent n = false) (hdots : n ≠ dots)
    (hlink : t.entry? (here ++ [n]) = some (.link target)) :
    t.landing (k + 1) here (n :: rest) = t.landing k (target.start here) (target.steps ++ rest) := by
  rw [landing, hsilent, if_neg (by simp), if_neg hdots, hlink]

theorem landing_enter (hsilent : isSilent n = false) (hdots : n ≠ dots)
    (hlink : ∀ target, t.entry? (here ++ [n]) ≠ some (.link target)) :
    t.landing k here (n :: rest) = t.landing k (here ++ [n]) rest := by
  rw [landing, hsilent, if_neg (by simp), if_neg hdots]
  split
  · rename_i target hentry
    exact absurd hentry (hlink target)
  · rfl

/-- Where a lookup leads, in whatever tree with these links, is where the names come to lead. -/
theorem Follows.landing_eq (h : u.Follows purpose k here steps found) (hlinks : t.SameLinks u)
    (hpurpose : purpose ≠ .link) : t.landing k here steps = some found.location := by
  induction h with
  | arrive => rw [landing]; rfl
  | stay _ hn _ ih => rw [landing_silent hn, ih]
  | leave _ _ ih => rw [landing_dots, ih]
  | free _ hn hfree =>
    rw [landing_enter hn.not_silent hn.ne_dots, landing]
    · rfl
    · intro target hlink
      exact absurd (hfree.symm.trans ((hlinks _ _).mp hlink)) (by simp)
  | link _ _ _ hlast => exact absurd hlast hpurpose
  | through _ hn _ hlink _ _ ih => rw [landing_link hn.not_silent hn.ne_dots ((hlinks _ _).mpr hlink), ih]
  | enter _ hn _ hentry hlink _ ih =>
    rw [landing_enter hn.not_silent hn.ne_dots, ih]
    intro target hlinked
    exact hlink target (Option.some.inj (hentry.symm.trans ((hlinks _ _).mp hlinked)))

theorem landing_append (h : t.landing k here front = some l) :
    ∃ j ≤ k, ∀ rest, t.landing k here (front ++ rest) = t.landing j l rest := by
  fun_induction t.landing k here front with
  | case1 k here =>
    obtain rfl := Option.some.inj h
    exact ⟨k, Nat.le_refl k, fun _ => rfl⟩
  | case2 k here n front hn ih =>
    obtain ⟨j, hj, hrest⟩ := ih h
    exact ⟨j, hj, fun rest => (landing_silent hn).trans (hrest rest)⟩
  | case3 k here front hn ih =>
    obtain ⟨j, hj, hrest⟩ := ih h
    exact ⟨j, hj, fun rest => landing_dots.trans (hrest rest)⟩
  | case4 => exact absurd h (by simp)
  | case5 here n front hn hd target hlink k ih =>
    obtain ⟨j, hj, hrest⟩ := ih h
    refine ⟨j, Nat.le_succ_of_le hj, fun rest => ?_⟩
    rw [List.cons_append, landing_link (by simpa using hn) hd hlink, ← hrest, List.append_assoc]
  | case6 k here n front hn hd hlink ih =>
    obtain ⟨j, hj, hrest⟩ := ih h
    refine ⟨j, hj, fun rest => ?_⟩
    rw [List.cons_append, landing_enter (by simpa using hn) hd hlink, hrest]

theorem landing_eq_locate (hlinks : ∀ front, front <+: steps → front ≠ [] → ∀ target,
    t.entry? (locate here front) ≠ some (.link target)) : t.landing k here steps = some (locate here steps) := by
  induction steps generalizing here with
  | nil => rw [landing, locate]
  | cons n steps ih =>
    have hbehind {here' : Location} (hlocate : ∀ front, locate here (n :: front) = locate here' front) :
        t.landing k here' steps = some (locate here' steps) := by
      apply ih
      intro front hfront hne target
      rw [← hlocate]
      exact hlinks (n :: front) ((List.prefix_cons_inj n).mpr hfront) (List.cons_ne_nil n front) target
    by_cases hsilent : isSilent n = true
    · have hlocate (front : List Name) : locate here (n :: front) = locate here front := by rw [locate, if_pos hsilent]
      rw [landing_silent hsilent, hbehind hlocate, hlocate]
    · rw [Bool.not_eq_true] at hsilent
      by_cases hdots : n = dots
      · subst hdots
        have hlocate (front : List Name) : locate here (dots :: front) = locate here.dropLast front := by
          rw [locate, if_neg (by decide), if_pos rfl]
        rw [landing_dots, hbehind hlocate, hlocate]
      · have hlocate (front : List Name) : locate here (n :: front) = locate (here ++ [n]) front := by
          rw [locate, hsilent, if_neg (by simp), if_neg hdots]
        rw [landing_enter hsilent hdots, hbehind hlocate, hlocate]
        intro target
        have hname := hlinks [n] (by simp) (by simp) target
        rwa [hlocate, locate] at hname

theorem landing_eq_append (hplain : ∀ n ∈ steps, isSilent n = false ∧ n ≠ dots)
    (hlinks : ∀ front, front <+: steps → front ≠ [] → ∀ target, t.entry? (here ++ front) ≠ some (.link target)) :
    t.landing k here steps = some (here ++ steps) := by
  rw [landing_eq_locate, locate_eq_append hplain]
  intro front hfront hne target
  rw [locate_eq_append fun n hn => hplain n (hfront.subset hn)]
  exact hlinks front hfront hne target

end Florin.FileTree
