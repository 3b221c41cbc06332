import Florin.Proofs.FileTree.Resolving

/-! # What is made for a path

Making the directories of a path adds directories above the place that the path is resolved to, or below it
where they were before. Nothing else changes, and if all are made the path leads to that place.
-/
namespace Florin.FileTree
open Florin.Path

variable {t u v : FileTree} {p up : Path} {l m place : Location} {n : Name} {e : Entry} {front ns : List Name}

/-- The later tree has some more directories, all of them at locations of one kind. -/
structure Grows (t u : FileTree) (near : Location → Prop) : Prop where
  current : u.current = t.current
  entry? : ∀ l, u.entry? l = t.entry? l ∨ near l ∧ t.entry? l = none ∧ u.entry? l = some .directory
  part : ∀ top, (∀ l, near l → ¬ top <+: l) → u.part top = t.part top
  wellFormed : u.WellFormed

namespace Grows

variable {near : Location → Prop}

theorem refl (wf : t.WellFormed) (near : Location → Prop) : t.Grows t near :=
  ⟨rfl, fun _ => .inl rfl, fun _ _ => rfl, wf⟩

theorem put (h : t.Grows u near) (hmakes : u.Makes p l n front) (hnear : near (l ++ [n])) :
    t.Grows (u.put (l ++ [n]) .directory) near where
  current := h.current
  entry? m := by
    rw [entry?_put u _ (by simp)]
    split
    · rename_i hm
      rcases h.entry? m with hsame | ⟨-, -, hdir⟩
      · rw [hm] at hsame ⊢
        exact .inr ⟨hnear, hsame.symm.trans hmakes.free, rfl⟩
      · rw [hm, hmakes.free] at hdir
        exact absurd hdir (by simp)
    · exact h.entry? m
  part top htop := (part_put _ (htop _ hnear)).trans (h.part top htop)
  wellFormed := hmakes.wellFormed h.wellFormed

theorem of_entry? (h : t.Grows u near) (hl : t.entry? l = some e) : u.entry? l = some e := by
  rcases h.entry? l with hsame | ⟨-, hnone, -⟩
  · rw [hsame, hl]
  · exact absurd (hnone.symm.trans hl) (by simp)

theorem keeps (h : t.Grows u near) : t.Keeps u where
  current := h.current
  entry? _ e hl := ⟨e, h.of_entry? hl, .refl e⟩

theorem link (h : t.Grows u near) {target : Path} (hl : u.entry? l = some (.link target)) :
    t.entry? l = some (.link target) := by
  rcases h.entry? l with hsame | ⟨-, -, hdir⟩
  · rw [← hsame, hl]
  · exact absurd (hdir.symm.trans hl) (by simp)

end Grows

theorem Lacks.plain (h : t.Lacks p m front ns) (hn : n ∈ ns) : isSilent n = false ∧ n ≠ dots :=
  ⟨not_silent_of_mem_spoken (h.spoken ▸ List.mem_append_right front hn), h.ne_dots n hn⟩

/-- The missing names lead where they are written: what is there was made on the way. -/
theorem Lacks.location_eq (h : t.Lacks p m front ns) (wf : t.WellFormed) {first : Name} {rest mid : List Name}
    (hns : ns = first :: rest) (hnone : t.entry? (m ++ [first]) = none) (hgrows : t.Grows u (· <+: m ++ ns)) {k : Nat}
    (hmid : mid <+: ns) (hfollows : u.Follows .entry k m mid (.present l .directory)) : l = m ++ mid := by
  refine hfollows.location_eq_append (fun n hn => h.plain (hmid.subset hn)) fun pre hpre hne target hlink => ?_
  obtain ⟨n, pre, rfl⟩ := List.exists_cons_of_ne_nil hne
  have hpre' := hpre.trans hmid
  rw [hns] at hpre'
  obtain ⟨rfl, -⟩ := List.cons_prefix_cons.mp hpre'
  have hsome : t.entry? (m ++ n :: pre) ≠ none := Option.ne_none_iff_exists'.mpr ⟨_, hgrows.link hlink⟩
  exact hsome (wf.entry?_eq_none hnone (by simp))

/-- If the first missing name is taken by something that is no directory, nothing is made. -/
theorem Lacks.ends_makeDirectories_of_taken (h : t.Lacks p m front (n :: ns)) (htaken : t.entry? (m ++ [n]) ≠ none)
    (hnot : ∀ found, t.find p ≠ .ok found) (hparent : p.parent? ≠ none) (htext : p.text ≠ []) :
    Ends (Disk.makeDirectories p) t fun r u => u = t ∧ r ≠ .ok () := by
  obtain ⟨e, hfront⟩ := h.follows
  refine (Disk.ends_makeDirectories (fun u => u = t) ?_ rfl).mono fun r u hu => ?_
  · rintro up hup hne u v rfl hmade
    obtain ⟨front', l, n', hmakes, -⟩ := makeDirectory_eq_ok hmade
    have habove := isAbove_of_mem_ancestors hup hne
    obtain ⟨mid, more, hmid, hfollows⟩ := hmakes.exists_spoken habove h.spoken hfront
    -- A directory on the way has the first missing name, which is taken, or one behind it, where nothing leads.
    cases mid with
    | nil =>
      obtain ⟨rfl, -⟩ := List.cons.inj hmid
      rw [List.append_nil] at hfollows
      obtain ⟨rfl, -⟩ := Place.present.inj (hfollows.unique hfront)
      exact absurd hmakes.free htaken
    | cons n'' mid =>
      rw [List.append_cons] at hfollows
      obtain ⟨m', e', hnext⟩ := hfollows.exists_front (.inl rfl) (by simp)
      exact absurd hnext (h.next n'' _ hmid (by simp) m' e')
  · obtain ⟨rfl, hdir⟩ := hu
    refine ⟨rfl, fun hok => ?_⟩
    obtain ⟨l, hl⟩ := isDirectory_iff.mp (hdir hok htext hparent)
    exact hnot _ hl

/-- The directories of a path whose last names are missing come to lie below what is there. -/
theorem Lacks.ends_makeDirectories (h : t.Lacks p m front ns) (wf : t.WellFormed)
    (hnot : ∀ found, t.find p ≠ .ok found) (hparent : p.parent? ≠ none) (htext : p.text ≠ []) :
    Ends (Disk.makeDirectories p) t fun r u => t.Grows u (· <+: m ++ ns) ∧
      (r = .ok () → u.find p = .ok (m ++ ns, .directory) ∧ ∀ l, m ++ ns <+: l → t.entry? l = none) := by
  obtain ⟨first, rest, hns⟩ := List.exists_cons_of_ne_nil h.ne_nil
  obtain ⟨e, hfront⟩ := h.follows
  by_cases hfirst : t.entry? (m ++ [first]) = none
  · refine (Disk.ends_makeDirectories (fun u => t.Grows u (· <+: m ++ ns)) ?_ (.refl wf _)).mono fun r u hu => ?_
    · intro up hup hne u v hgrows hmade
      obtain ⟨front', l, n, hmakes, rfl⟩ := makeDirectory_eq_ok hmade
      have habove := isAbove_of_mem_ancestors hup hne
      obtain ⟨e', hfront', -⟩ := hgrows.keeps.follows hfront
      rw [← hgrows.current] at hfront'
      obtain ⟨mid, more, hmid, hfollows⟩ := hmakes.exists_spoken habove h.spoken hfront'
      obtain ⟨j, -, hlast⟩ := hfollows.append (.inl rfl) hfront'
      -- Behind the missing name there is only what was made so far, and no link.
      obtain rfl := h.location_eq wf hns hfirst hgrows (hmid ▸ List.prefix_append _ _) hlast
      refine hgrows.put hmakes ?_
      simp [hmid]
    · obtain ⟨hgrows, hdir⟩ := hu
      refine ⟨hgrows, fun hok => ⟨?_, fun l hl => ?_⟩⟩
      · obtain ⟨l, hl⟩ := isDirectory_iff.mp (hdir hok htext hparent)
        obtain ⟨e', hfront', -⟩ := hgrows.keeps.follows hfront
        rw [← hgrows.current] at hfront'
        have hfollows := (follows_names_of_find hl).spoken
        rw [h.spoken] at hfollows
        obtain ⟨j, -, hlast⟩ := hfollows.append (.inl rfl) hfront'
        obtain rfl := h.location_eq wf hns hfirst hgrows (List.prefix_refl _) hlast
        exact hl
      · refine wf.entry?_eq_none hfirst (List.IsPrefix.trans ?_ hl)
        simp [hns]
  · subst hns
    refine (h.ends_makeDirectories_of_taken hfirst hnot hparent htext).mono fun r u hu => ?_
    obtain ⟨rfl, hfailed⟩ := hu
    exact ⟨.refl wf _, fun hok => absurd hok hfailed⟩

theorem ends_makeDirectories_of_find (h : t.find p = .ok (l, e)) :
    Ends (Disk.makeDirectories p) t fun r u => u = t ∧
      (r = .ok () → p.text ≠ [] → p.parent? ≠ none → e = .directory) := by
  refine (Disk.ends_makeDirectories (fun u => u = t) ?_ rfl).mono fun r u hu => ⟨hu.1, fun hok htext hparent => ?_⟩
  · rintro up hup hne u v rfl hmade
    obtain ⟨front, l, n, hmakes, -⟩ := makeDirectory_eq_ok hmade
    exact absurd (follows_names_of_find h) (hmakes.not_follows_names (isAbove_of_mem_ancestors hup hne))
  · obtain ⟨rfl, hdir⟩ := hu
    obtain ⟨m, hm⟩ := isDirectory_iff.mp (hdir hok htext hparent)
    obtain ⟨-, rfl⟩ := Prod.mk.inj (Except.ok.inj (h.symm.trans hm))
    rfl

/-- The later tree is what remains of the earlier one when something at a place or below it is taken away. -/
structure Remains (t u : FileTree) (place : Location) : Prop where
  current : u.current = t.current
  within : ∀ l e, u.entry? l = some e → t.entry? l = some e
  outside : ∀ l, ¬ place <+: l → u.entry? l = t.entry? l

theorem Remains.refl (t : FileTree) (place : Location) : t.Remains t place := ⟨rfl, fun _ _ h => h, fun _ _ => rfl⟩

theorem Remains.keeps (h : t.Remains u place) : u.Keeps t where
  current := h.current.symm
  entry? l e hl := ⟨e, h.within l e hl, .refl e⟩

/-- What is made for a path that led to a directory was a directory before. -/
theorem Remains.of_makes (h : t.Remains u place) (hfind : t.find p = .ok (place, .directory))
    (hlinks : ∀ l target, place <+: l → t.entry? l ≠ some (.link target)) (habove : up.IsAbove p)
    (hmakes : u.Makes up l n front) : place <+: l ++ [n] ∧ t.entry? (l ++ [n]) = some .directory := by
  have hfront := h.keeps.follows_directory hmakes.follows
  rw [start_of_isAbove habove, h.current] at hfront
  obtain ⟨more, hmore⟩ := habove.2
  have hnames := follows_names_of_find hfind
  rw [← hmore, hmakes.names] at hnames
  obtain ⟨m, e, hm⟩ := hnames.exists_front (.inl rfl) (by simp)
  obtain ⟨j, -, hlast⟩ := hm.append (.inl rfl) hfront
  obtain ⟨i, -, hrest⟩ := hnames.append (.inl rfl) hm
  have hplace : t.entry? (l ++ [n]) ≠ none → place <+: l ++ [n] := by
    intro hsome
    by_contra hout
    rw [← h.outside _ hout, hmakes.free] at hsome
    exact hsome rfl
  cases hlast with
  | stay _ hn => exact absurd hn (by simp [hmakes.proper.not_silent])
  | leave => exact absurd rfl hmakes.proper.ne_dots
  | link _ _ _ hpurpose => exact absurd hpurpose (by decide)
  | through _ _ _ hlink => exact absurd hlink (hlinks _ _ (hplace (by simp [hlink])))
  | enter _ _ _ hentry _ harrive =>
    cases harrive with
    | arrive hl =>
      refine ⟨hplace (by simp [hl]), ?_⟩
      by_cases hmore' : more = []
      · rw [hmore'] at hrest
        cases hrest with
        | arrive hdir => exact hdir
      · exact hrest.directory_of_ne_nil hmore'

/-- For a path that led to a directory, the directories that were taken away on its way are made again. -/
theorem Remains.ends_makeDirectories (h : t.Remains u place) (hfind : t.find p = .ok (place, .directory))
    (hlinks : ∀ l target, place <+: l → t.entry? l ≠ some (.link target)) (wf : u.WellFormed)
    (hparent : p.parent? ≠ none) (htext : p.text ≠ []) :
    Ends (Disk.makeDirectories p) u fun r v => u.Grows v (place <+: ·) ∧
      (r = .ok () → v.find p = .ok (place, .directory)) := by
  refine (Disk.ends_makeDirectories (fun v => u.Grows v (place <+: ·) ∧ t.Remains v place) ?_
    ⟨.refl wf _, h⟩).mono fun r v hv => ⟨hv.1.1, fun hok => ?_⟩
  · rintro up hup hne v w ⟨hgrows, hremains⟩ hmade
    obtain ⟨front, l, n, hmakes, rfl⟩ := makeDirectory_eq_ok hmade
    obtain ⟨hplace, hdir⟩ := hremains.of_makes hfind hlinks (isAbove_of_mem_ancestors hup hne) hmakes
    refine ⟨hgrows.put hmakes hplace, hremains.current, fun m e hm => ?_, fun m hm => ?_⟩
    · rw [entry?_put v _ (by simp)] at hm
      split at hm
      · rename_i heq
        rw [heq, hdir, ← hm]
      · exact hremains.within m e hm
    · rw [entry?_put v _ (by simp), if_neg]
      · exact hremains.outside m hm
      · rintro rfl
        exact hm hplace
  · obtain ⟨⟨-, hremains⟩, hdir⟩ := hv
    obtain ⟨l, hl⟩ := isDirectory_iff.mp (hdir hok htext hparent)
    have hfollows := hremains.keeps.follows_directory (follows_names_of_find hl)
    rw [hremains.current] at hfollows
    obtain ⟨rfl, -⟩ := Place.present.inj (hfollows.unique (follows_names_of_find hfind))
    exact hl

end Florin.FileTree
