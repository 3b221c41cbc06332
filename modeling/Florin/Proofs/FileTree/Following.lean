import Florin.Proofs.FileTree.Entries

/-! # Where names lead

The lookup of a path as a relation, with one rule for each kind of step. What follows for a whole path is
proved by induction over its steps: paths divide, silent names say nothing, and more directories lead the same
way.
-/
namespace Florin.Entry

/-- Entries that lookups treat alike: two files differ in their bytes only. -/
def Like : Entry → Entry → Prop
  | .file _, .file _ => True
  | .directory, .directory => True
  | .link target, .link target' => target = target'
  | _, _ => False

namespace Like

variable {e : Entry} {target : Path}

theorem refl (e : Entry) : e.Like e := by
  cases e <;> simp [Like]

theorem trans {e' e'' : Entry} (h : e.Like e') (h' : e'.Like e'') : e.Like e'' := by
  cases e <;> cases e' <;> cases e'' <;> simp_all [Like]

theorem directory (h : Like .directory e) : e = .directory := by
  cases e <;> simp_all [Like]

theorem file {bytes : ByteArray} (h : Like (.file bytes) e) : ∃ bytes', e = .file bytes' := by
  cases e <;> simp_all [Like]

theorem link (h : Like (.link target) e) : e = .link target := by
  cases e <;> simp_all [Like]

theorem of_link (h : e.Like (.link target)) : e = .link target := by
  cases e <;> simp_all [Like]

end Like

end Florin.Entry

namespace Florin.FileTree
open Florin.Path

/-- Names lead from a location to a place, through at most so many links. -/
inductive Follows (t : FileTree) (purpose : Purpose) : Nat → Location → List Name → Place → Prop
  | arrive {k here e} (h : t.entry? here = some e) : Follows t purpose k here [] (.present here e)
  | stay {k here n rest place} (h : t.entry? here = some .directory) (hn : isSilent n = true)
      (hrest : Follows t purpose k here rest place) : Follows t purpose k here (n :: rest) place
  | leave {k here rest place} (h : t.entry? here = some .directory)
      (hrest : Follows t purpose k here.dropLast rest place) : Follows t purpose k here (dots :: rest) place
  | free {k here n} (h : t.entry? here = some .directory) (hn : Word n)
      (hfree : t.entry? (here ++ [n]) = none) : Follows t purpose k here [n] (.free (here ++ [n]))
  | link {k here n target} (h : t.entry? here = some .directory) (hn : Word n)
      (hlink : t.entry? (here ++ [n]) = some (.link target)) (hpurpose : purpose = .link) :
      Follows t purpose k here [n] (.present (here ++ [n]) (.link target))
  | through {k here n rest target place} (h : t.entry? here = some .directory) (hn : Word n)
      (hslash : ¬ (purpose = .output ∧ rest = [[]])) (hlink : t.entry? (here ++ [n]) = some (.link target))
      (hlast : ¬ (rest = [] ∧ purpose = .link))
      (hrest : Follows t purpose k (target.start here) (target.steps ++ rest) place) :
      Follows t purpose (k + 1) here (n :: rest) place
  | enter {k here n rest e place} (h : t.entry? here = some .directory) (hn : Word n)
      (hslash : ¬ (purpose = .output ∧ rest = [[]])) (hentry : t.entry? (here ++ [n]) = some e)
      (hlink : ∀ target, e ≠ .link target) (hrest : Follows t purpose k (here ++ [n]) rest place) :
      Follows t purpose k here (n :: rest) place

variable {t u : FileTree} {purpose : Purpose} {k j : Nat} {here l m : Location} {n : Name} {e : Entry}
  {target : Path} {steps front rest : List Name} {place : Place}

theorem word_of_not_silent (hs : ¬ (n.isEmpty || decide (n = dot)) = true) (hd : ¬ n = dots)
    (hl : ¬ Text.byteLength n > 255) : Word n := by
  simp only [Bool.or_eq_true, List.isEmpty_iff, decide_eq_true_eq, not_or] at hs
  exact ⟨hs.1, hs.2, hd, by omega⟩

theorem follows_of_follow (h : t.follow purpose k here steps = .ok place) :
    t.Follows purpose k here steps place := by
  fun_induction FileTree.follow t purpose k here steps with
  | case1 k here e he =>
    rw [← Except.ok.inj h]
    exact .arrive he
  | case3 k here n rest hdir hs ih => exact .stay (any_isDirectory.mp hdir) hs (ih h)
  | case4 k here rest hdir hs ih => exact .leave (any_isDirectory.mp hdir) (ih h)
  | case7 k here n rest hdir hs hd hslash hlong hfree hlast =>
    rw [← Except.ok.inj h, List.isEmpty_iff.mp hlast]
    exact .free (any_isDirectory.mp hdir) (word_of_not_silent hs hd hlong) hfree
  | case9 k here n rest hdir hs hd hslash hlong target hlink hlast =>
    simp only [Bool.and_eq_true, List.isEmpty_iff, decide_eq_true_eq] at hlast
    rw [← Except.ok.inj h, hlast.1]
    exact .link (any_isDirectory.mp hdir) (word_of_not_silent hs hd hlong) hlink hlast.2
  | case11 here n rest hdir hs hd hslash hlong target hlink hlast k ih =>
    simp only [Bool.and_eq_true, List.isEmpty_iff, decide_eq_true_eq] at hslash hlast
    exact .through (any_isDirectory.mp hdir) (word_of_not_silent hs hd hlong) hslash hlink hlast (ih h)
  | case12 k here n rest hdir hs hd hslash hlong e hlink hentry ih =>
    simp only [Bool.and_eq_true, decide_eq_true_eq] at hslash
    exact .enter (any_isDirectory.mp hdir) (word_of_not_silent hs hd hlong) hslash hentry hlink (ih h)
  | case2 | case5 | case6 | case8 | case10 | case13 | case14 => exact absurd h (by simp)

theorem follow_nil (h : t.entry? here = some e) : t.follow purpose k here [] = .ok (.present here e) := by
  rw [follow, h]

theorem follow_stay (h : t.entry? here = some .directory) (hn : isSilent n = true) :
    t.follow purpose k here (n :: rest) = t.follow purpose k here rest := by
  rw [isSilent] at hn
  rw [follow, if_pos (any_isDirectory.mpr h), if_pos hn]

theorem follow_leave (h : t.entry? here = some .directory) :
    t.follow purpose k here (dots :: rest) = t.follow purpose k here.dropLast rest := by
  rw [follow, if_pos (any_isDirectory.mpr h), if_neg (by decide), if_pos rfl]

theorem follow_word (h : t.entry? here = some .directory) (hn : Word n)
    (hslash : ¬ (purpose = .output ∧ rest = [[]])) :
    t.follow purpose k here (n :: rest) =
      match t.entry? (here ++ [n]) with
      | none => if rest.isEmpty then .ok (.free (here ++ [n])) else .error .notFound
      | some (.link target) =>
        if rest.isEmpty && purpose = .link then .ok (.present (here ++ [n]) (.link target))
        else
          match k with
          | 0 => .error .tooManyLinks
          | k + 1 => t.follow purpose k (target.start here) (target.steps ++ rest)
      | some _ => t.follow purpose k (here ++ [n]) rest := by
  have hs : ¬ (n.isEmpty || decide (n = dot)) = true := by simpa [isSilent] using hn.not_silent
  have hlong : ¬ Text.byteLength n > 255 := Nat.not_lt.mpr hn.short
  rewrite [follow, if_pos (any_isDirectory.mpr h), if_neg hs, if_neg hn.ne_dots, if_neg (by simpa using hslash),
    if_neg hlong]
  rfl

theorem follow_of_follows (h : t.Follows purpose k here steps place) :
    t.follow purpose k here steps = .ok place := by
  induction h with
  | arrive h => exact follow_nil h
  | stay h hn _ ih => rw [follow_stay h hn, ih]
  | leave h _ ih => rw [follow_leave h, ih]
  | free h hn hfree =>
    rw [follow_word h hn (by simp), hfree]
    rfl
  | link h hn hlink hpurpose =>
    rw [follow_word h hn (by simp), hlink]
    simp [hpurpose]
  | through h hn hslash hlink hlast _ ih =>
    rw [follow_word h hn hslash, hlink]
    simpa [hlast] using ih
  | @enter k here n rest e place h hn hslash hentry hlink _ ih =>
    rw [follow_word h hn hslash, hentry]
    cases e with
    | link target => exact absurd rfl (hlink target)
    | file bytes => exact ih
    | directory => exact ih

theorem follow_eq_ok_iff : t.follow purpose k here steps = .ok place ↔ t.Follows purpose k here steps place :=
  ⟨follows_of_follow, follow_of_follows⟩

/-- What a lookup for the whole of a path says of the names before these is no more than where they lead. -/
def Divides (purpose : Purpose) (rest : List Name) : Prop := purpose = .entry ∨ rest ≠ [] ∧ rest ≠ [[]]

theorem Divides.not_slash (h : Divides purpose rest) (front : List Name) :
    ¬ (purpose = .output ∧ front ++ rest = [[]]) := by
  rintro ⟨hpurpose, heq⟩
  rcases h with hentry | ⟨hne, hslash⟩
  · exact absurd (hpurpose.symm.trans hentry) (by decide)
  · cases front with
    | nil => exact hslash heq
    | cons n front => exact hne (List.append_eq_nil_iff.mp (List.cons.inj heq).2).2

theorem Divides.not_last (h : Divides purpose rest) (front : List Name) :
    ¬ (front ++ rest = [] ∧ purpose = .link) := by
  rintro ⟨heq, hpurpose⟩
  rcases h with hentry | ⟨hne, -⟩
  · exact absurd (hpurpose.symm.trans hentry) (by decide)
  · exact hne (List.append_eq_nil_iff.mp heq).2

namespace Follows

theorem directory_of_ne_nil (h : t.Follows purpose k here steps place) (hne : steps ≠ []) :
    t.entry? here = some .directory := by
  cases h with
  | arrive => exact absurd rfl hne
  | stay h | leave h | free h | link h | through h | enter h => exact h

theorem entry?_eq (h : t.Follows purpose k here steps (.present l e)) : t.entry? l = some e := by
  generalize hp : Place.present l e = place at h
  induction h with
  | arrive h =>
    obtain ⟨rfl, rfl⟩ := Place.present.inj hp
    exact h
  | stay _ _ _ ih | leave _ _ ih | through _ _ _ _ _ _ ih | enter _ _ _ _ _ _ ih => exact ih hp
  | free => exact Place.noConfusion hp
  | link _ _ hlink _ =>
    obtain ⟨rfl, rfl⟩ := Place.present.inj hp
    exact hlink

/-- Names that lead somewhere lead to an entry wherever they are divided. -/
theorem exists_front (h : t.Follows purpose k here (front ++ rest) place) (hrest : Divides purpose rest)
    (hfree : rest = [] → ∀ l, place ≠ .free l) : ∃ m e, t.Follows .entry k here front (.present m e) := by
  -- Along the lookup: where the front is used up, the entry is the one that the lookup has come to.
  generalize hs : front ++ rest = steps at h
  induction h generalizing front with
  | arrive h =>
    obtain ⟨rfl, -⟩ := List.append_eq_nil_iff.mp hs
    exact ⟨_, _, .arrive h⟩
  | stay h hn _ ih =>
    cases front with
    | nil => exact ⟨_, _, .arrive h⟩
    | cons n front =>
      obtain ⟨rfl, hs'⟩ := List.cons.inj hs
      obtain ⟨m, e, hfront⟩ := ih hfree hs'
      exact ⟨m, e, .stay h hn hfront⟩
  | leave h _ ih =>
    cases front with
    | nil => exact ⟨_, _, .arrive h⟩
    | cons n front =>
      obtain ⟨rfl, hs'⟩ := List.cons.inj hs
      obtain ⟨m, e, hfront⟩ := ih hfree hs'
      exact ⟨m, e, .leave h hfront⟩
  | free h hn _ =>
    cases front with
    | nil => exact ⟨_, _, .arrive h⟩
    | cons n front =>
      obtain ⟨-, hs'⟩ := List.cons.inj hs
      exact absurd rfl (hfree (List.append_eq_nil_iff.mp hs').2 _)
  | link h hn _ hpurpose =>
    cases front with
    | nil => exact ⟨_, _, .arrive h⟩
    | cons n front =>
      obtain ⟨-, hs'⟩ := List.cons.inj hs
      exact absurd ⟨hs', hpurpose⟩ (hrest.not_last front)
  | through h hn _ hlink _ _ ih =>
    cases front with
    | nil => exact ⟨_, _, .arrive h⟩
    | cons n front =>
      obtain ⟨rfl, rfl⟩ := List.cons.inj hs
      obtain ⟨m, e, hfront⟩ := ih hfree (List.append_assoc _ _ _)
      exact ⟨m, e, .through h hn (by simp) hlink (by simp) hfront⟩
  | enter h hn _ hentry hlink _ ih =>
    cases front with
    | nil => exact ⟨_, _, .arrive h⟩
    | cons n front =>
      obtain ⟨rfl, rfl⟩ := List.cons.inj hs
      obtain ⟨m, e, hfront⟩ := ih hfree rfl
      exact ⟨m, e, .enter h hn (by simp) hentry hlink hfront⟩

theorem follow_append (h : t.Follows .entry k here front (.present l e)) :
    ∃ j ≤ k, ∀ purpose rest, Divides purpose rest →
      t.follow purpose k here (front ++ rest) = t.follow purpose j l rest := by
  generalize hp : Place.present l e = place at h
  induction h with
  | @arrive k here e h =>
    obtain ⟨rfl, rfl⟩ := Place.present.inj hp
    exact ⟨k, Nat.le_refl k, fun _ _ _ => rfl⟩
  | stay h hn _ ih =>
    obtain ⟨j, hj, hfollow⟩ := ih hp
    exact ⟨j, hj, fun purpose rest hrest => (follow_stay h hn).trans (hfollow purpose rest hrest)⟩
  | leave h _ ih =>
    obtain ⟨j, hj, hfollow⟩ := ih hp
    exact ⟨j, hj, fun purpose rest hrest => (follow_leave h).trans (hfollow purpose rest hrest)⟩
  | free => exact Place.noConfusion hp
  | link _ _ _ hpurpose => exact absurd hpurpose (by decide)
  | @through k here n front target place h hn _ hlink _ _ ih =>
    obtain ⟨j, hj, hfollow⟩ := ih hp
    refine ⟨j, Nat.le_succ_of_le hj, fun purpose rest hrest => ?_⟩
    have hlast := hrest.not_last front
    rw [List.cons_append, follow_word h hn (hrest.not_slash front), hlink, ← hfollow purpose rest hrest,
      List.append_assoc]
    dsimp only
    rw [if_neg (by simpa using hlast)]
  | @enter k here n front e place h hn _ hentry hlink _ ih =>
    obtain ⟨j, hj, hfollow⟩ := ih hp
    refine ⟨j, hj, fun purpose rest hrest => ?_⟩
    rw [List.cons_append, follow_word h hn (hrest.not_slash front), hentry, ← hfollow purpose rest hrest]
    cases e with
    | link target => exact absurd rfl (hlink target)
    | file bytes => rfl
    | directory => rfl

theorem append (h : t.Follows purpose k here (front ++ rest) place) (hrest : Divides purpose rest)
    (hfront : t.Follows .entry k here front (.present l e)) : ∃ j ≤ k, t.Follows purpose j l rest place := by
  obtain ⟨j, hj, hfollow⟩ := hfront.follow_append
  refine ⟨j, hj, follows_of_follow ?_⟩
  rw [← hfollow purpose rest hrest]
  exact follow_of_follows h

theorem unique {place' : Place} (h : t.Follows purpose k here steps place)
    (h' : t.Follows purpose k here steps place') : place = place' :=
  Except.ok.inj ((follow_of_follows h).symm.trans (follow_of_follows h'))

theorem append_filter_silent (h : t.Follows .entry k here (front ++ rest) (.present l e)) :
    t.Follows .entry k here (front ++ rest.filter fun n => !isSilent n) (.present l e) := by
  -- Along the lookup; while the front lasts its steps stay, behind it the silent ones are dropped.
  generalize hp : Place.present l e = place at h
  generalize hs : front ++ rest = steps at h
  induction h generalizing front rest with
  | arrive h =>
    obtain ⟨rfl, rfl⟩ := List.append_eq_nil_iff.mp hs
    exact .arrive h
  | @stay k here n rest' place h hn _ ih =>
    cases front with
    | nil =>
      subst hs
      rw [List.filter_cons_of_neg (by simp [hn])]
      exact ih hp (List.nil_append _)
    | cons n front =>
      obtain ⟨rfl, rfl⟩ := List.cons.inj hs
      exact .stay h hn (ih hp rfl)
  | leave h _ ih =>
    cases front with
    | nil =>
      subst hs
      have hrest := ih hp (List.nil_append _)
      rw [List.nil_append, List.filter_cons_of_pos (by decide)]
      exact .leave h hrest
    | cons n front =>
      obtain ⟨rfl, rfl⟩ := List.cons.inj hs
      exact .leave h (ih hp rfl)
  | free => exact Place.noConfusion hp
  | link _ _ _ hpurpose => exact absurd hpurpose (by decide)
  | @through k here n rest' target place h hn _ hlink _ _ ih =>
    cases front with
    | nil =>
      subst hs
      rw [List.nil_append, List.filter_cons_of_pos (by simp [hn.not_silent])]
      exact .through h hn (by simp) hlink (by simp) (ih hp rfl)
    | cons n front =>
      obtain ⟨rfl, rfl⟩ := List.cons.inj hs
      have hrest := ih hp (List.append_assoc target.steps front rest)
      rw [List.append_assoc] at hrest
      exact .through h hn (by simp) hlink (by simp) hrest
  | enter h hn _ hentry hlink _ ih =>
    cases front with
    | nil =>
      subst hs
      have hrest := ih hp (List.nil_append _)
      rw [List.nil_append, List.filter_cons_of_pos (by simp [hn.not_silent])]
      exact .enter h hn (by simp) hentry hlink hrest
    | cons n front =>
      obtain ⟨rfl, rfl⟩ := List.cons.inj hs
      exact .enter h hn (by simp) hentry hlink (ih hp rfl)

theorem ne_link (h : t.Follows .entry k here steps (.present l e)) (wf : t.WellFormed)
    (hhere : ∀ target, t.entry? here ≠ some (.link target)) : ∀ target, e ≠ .link target := by
  generalize hp : Place.present l e = place at h
  induction h with
  | arrive h =>
    obtain ⟨rfl, rfl⟩ := Place.present.inj hp
    rintro target rfl
    exact hhere target h
  | stay _ _ _ ih => exact ih hhere hp
  | leave h _ ih =>
    refine ih (fun target hlink => ?_) hp
    have hup := wf.dropLast (Option.ne_none_iff_exists'.mpr ⟨_, h⟩)
    exact absurd (hup.symm.trans hlink) (by simp)
  | free => exact Place.noConfusion hp
  | link _ _ _ hpurpose => exact absurd hpurpose (by decide)
  | @through k here n rest target place h _ _ _ _ _ ih =>
    refine ih (fun target' hlink => ?_) hp
    rw [start] at hlink
    split at hlink
    · exact absurd hlink (by simp)
    · exact hhere target' hlink
  | enter _ _ _ hentry hlink _ ih =>
    refine ih (fun target htarget => ?_) hp
    exact hlink target (Option.some.inj (hentry.symm.trans htarget))

theorem filter_silent (h : t.Follows .entry k here steps (.present l e)) :
    t.Follows .entry k here (steps.filter fun n => !isSilent n) (.present l e) := by
  rw [← List.nil_append steps] at h
  exact h.append_filter_silent

theorem exists_free (h : t.Follows purpose k here steps (.free l)) (hsteps : ∀ n ∈ steps, '/' ∉ n) :
    ∃ m n, l = m ++ [n] ∧ Proper n ∧ t.entry? m = some .directory ∧ t.entry? l = none := by
  generalize hp : Place.free l = place at h
  induction h with
  | arrive => exact Place.noConfusion hp
  | stay _ _ _ ih => exact ih (fun n hn => hsteps n (List.mem_cons_of_mem _ hn)) hp
  | leave _ _ ih => exact ih (fun n hn => hsteps n (List.mem_cons_of_mem _ hn)) hp
  | @free k here n h hn hfree =>
    obtain rfl := Place.free.inj hp
    exact ⟨here, n, rfl, ⟨hn, hsteps n List.mem_cons_self⟩, h, hfree⟩
  | link => exact Place.noConfusion hp
  | through _ _ _ _ _ _ ih =>
    refine ih (fun n hn => ?_) hp
    rcases List.mem_append.mp hn with hn | hn
    · exact no_slash_of_mem_steps hn
    · exact hsteps n (List.mem_cons_of_mem _ hn)
  | enter _ _ _ _ _ _ ih => exact ih (fun n hn => hsteps n (List.mem_cons_of_mem _ hn)) hp

end Follows

/-- The later tree has all that the earlier one has, up to what is in the files. -/
structure Keeps (t u : FileTree) : Prop where
  current : u.current = t.current
  entry? : ∀ l e, t.entry? l = some e → ∃ e', u.entry? l = some e' ∧ e.Like e'

namespace Keeps

theorem refl (t : FileTree) : t.Keeps t := ⟨rfl, fun _ e h => ⟨e, h, .refl e⟩⟩

theorem trans {w : FileTree} (h : t.Keeps u) (h' : u.Keeps w) : t.Keeps w where
  current := h'.current.trans h.current
  entry? l e hl := by
    obtain ⟨e', he', hlike⟩ := h.entry? l e hl
    obtain ⟨e'', he'', hlike'⟩ := h'.entry? l e' he'
    exact ⟨e'', he'', hlike.trans hlike'⟩

theorem directory (h : t.Keeps u) (hl : t.entry? l = some .directory) : u.entry? l = some .directory := by
  obtain ⟨e, he, hlike⟩ := h.entry? l _ hl
  rw [he, hlike.directory]

theorem link (h : t.Keeps u) (hl : t.entry? l = some (.link target)) : u.entry? l = some (.link target) := by
  obtain ⟨e, he, hlike⟩ := h.entry? l _ hl
  rw [he, hlike.link]

theorem follows (hkeeps : t.Keeps u) (h : t.Follows .entry k here steps (.present l e)) :
    ∃ e', u.Follows .entry k here steps (.present l e') ∧ e.Like e' := by
  generalize hp : Place.present l e = place at h
  induction h with
  | @arrive k here e h =>
    obtain ⟨rfl, rfl⟩ := Place.present.inj hp
    obtain ⟨e', he', hlike⟩ := hkeeps.entry? _ _ h
    exact ⟨e', .arrive he', hlike⟩
  | stay h hn _ ih =>
    obtain ⟨e', hrest, hlike⟩ := ih hp
    exact ⟨e', .stay (hkeeps.directory h) hn hrest, hlike⟩
  | leave h _ ih =>
    obtain ⟨e', hrest, hlike⟩ := ih hp
    exact ⟨e', .leave (hkeeps.directory h) hrest, hlike⟩
  | free => exact Place.noConfusion hp
  | link _ _ _ hpurpose => exact absurd hpurpose (by decide)
  | through h hn hslash hlink hlast _ ih =>
    obtain ⟨e', hrest, hlike⟩ := ih hp
    exact ⟨e', .through (hkeeps.directory h) hn hslash (hkeeps.link hlink) hlast hrest, hlike⟩
  | enter h hn hslash hentry hlink _ ih =>
    obtain ⟨e', hrest, hlike⟩ := ih hp
    obtain ⟨entered, hentered, hkind⟩ := hkeeps.entry? _ _ hentry
    refine ⟨e', .enter (hkeeps.directory h) hn hslash hentered ?_ hrest, hlike⟩
    rintro target rfl
    exact hlink target hkind.of_link

theorem follows_directory (hkeeps : t.Keeps u) (h : t.Follows .entry k here steps (.present l .directory)) :
    u.Follows .entry k here steps (.present l .directory) := by
  obtain ⟨e, hfollows, hlike⟩ := hkeeps.follows h
  rw [← hlike.directory]
  exact hfollows

end Keeps

/-- Where names lead if none of them is a link: `..` goes up, silent names stay. -/
def locate (here : Location) : List Name → Location
  | [] => here
  | n :: rest =>
    if isSilent n then locate here rest
    else if n = dots then locate here.dropLast rest
    else locate (here ++ [n]) rest

theorem locate_eq_append (hplain : ∀ n ∈ steps, isSilent n = false ∧ n ≠ dots) :
    locate here steps = here ++ steps := by
  induction steps generalizing here with
  | nil => simp [locate]
  | cons n steps ih =>
    obtain ⟨hsilent, hdots⟩ := hplain n List.mem_cons_self
    rw [locate, hsilent, if_neg (by simp), if_neg hdots, ih fun m hm => hplain m (List.mem_cons_of_mem _ hm),
      List.append_assoc, List.singleton_append]

theorem locate_word (hn : Word n) : locate here [n] = here ++ [n] := by
  rw [locate, hn.not_silent, if_neg (by simp), if_neg hn.ne_dots, locate]

theorem locate_append (here : Location) (front rest : List Name) :
    locate here (front ++ rest) = locate (locate here front) rest := by
  induction front generalizing here with
  | nil => rfl
  | cons n front ih =>
    rw [List.cons_append, locate, locate]
    split
    · exact ih _
    · split <;> exact ih _

theorem locate_filter_silent (here : Location) (steps : List Name) :
    locate here (steps.filter fun n => !isSilent n) = locate here steps := by
  induction steps generalizing here with
  | nil => rfl
  | cons n steps ih =>
    by_cases hn : isSilent n = true
    · rw [List.filter_cons_of_neg (by simp [hn]), ih, locate, if_pos hn]
    · rw [List.filter_cons_of_pos (by simp [hn]), locate, locate, if_neg hn, ih, ih]
      simp [hn]

/-- No link lies on the way of the names. -/
def Straight (t : FileTree) (here : Location) (steps : List Name) : Prop :=
  ∀ front, front <+: steps → ∀ target, t.entry? (locate here front) ≠ some (.link target)

theorem Follows.location_eq (h : t.Follows purpose k here steps place) (hstraight : t.Straight here steps) :
    place.location = locate here steps := by
  induction h with
  | arrive => rfl
  | @stay k here n rest place h hn _ ih =>
    rw [locate, if_pos hn]
    refine ih fun front hfront target => ?_
    have hstep := hstraight (n :: front) ((List.prefix_cons_inj n).mpr hfront) target
    rwa [locate, if_pos hn] at hstep
  | @leave k here rest place h _ ih =>
    rw [locate, if_neg (by decide), if_pos rfl]
    refine ih fun front hfront target => ?_
    have hstep := hstraight (dots :: front) ((List.prefix_cons_inj dots).mpr hfront) target
    rwa [locate, if_neg (by decide), if_pos rfl] at hstep
  | free _ hn _ => exact (locate_word hn).symm
  | link _ hn _ _ => exact (locate_word hn).symm
  | @through k here n rest target place h hn _ hlink _ _ _ =>
    have hstep := hstraight [n] (by simp) target
    rw [locate_word hn] at hstep
    exact absurd hlink hstep
  | @enter k here n rest e place h hn _ _ _ _ ih =>
    rw [locate, hn.not_silent, if_neg (by simp), if_neg hn.ne_dots]
    refine ih fun front hfront target => ?_
    have hstep := hstraight (n :: front) ((List.prefix_cons_inj n).mpr hfront) target
    rwa [locate, hn.not_silent, if_neg (by simp), if_neg hn.ne_dots] at hstep

/-- Plain names lead where they are written if there are no links among what they name. -/
theorem Follows.location_eq_append (h : t.Follows purpose k here steps place)
    (hplain : ∀ n ∈ steps, isSilent n = false ∧ n ≠ dots)
    (hlinks : ∀ front, front <+: steps → front ≠ [] → ∀ target, t.entry? (here ++ front) ≠ some (.link target)) :
    place.location = here ++ steps := by
  by_cases hne : steps = []
  · subst hne
    cases h
    exact (List.append_nil _).symm
  · have hdir := h.directory_of_ne_nil hne
    rw [← locate_eq_append hplain]
    refine h.location_eq fun front hfront target hlink => ?_
    rw [locate_eq_append fun n hn => hplain n (hfront.subset hn)] at hlink
    by_cases hnil : front = []
    · rw [hnil, List.append_nil, hdir] at hlink
      exact absurd hlink (by simp)
    · exact hlinks front hfront hnil target hlink

end Florin.FileTree
