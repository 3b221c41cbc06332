import Florin.Proofs.FileTree.Output

/-! # Making the directories of a resolved path

The directories of a path are made on the way to the place that the path is resolved to, if it can be looked up from
the top or there are no links.
-/
namespace Florin.FileTree
open Florin.Path

variable {t : FileTree} {p : Path} {l m place : Location} {e : Entry}

theorem Plain.resolve_eq (h : t.Plain []) (wf : t.WellFormed) (hresolve : t.resolve p = .ok l) :
    l = locate (p.start t.current) p.names := by
  obtain ⟨front, ns, m, e, hspoken, hdots, hfollows, rfl⟩ := exists_follows_of_resolve wf hresolve
  rw [← locate_filter_silent, ← telling, ← spoken_eq, hspoken, locate_append, ← h.location_eq hfollows]
  refine (locate_eq_append fun n hn => ⟨?_, hdots n hn⟩).symm
  exact not_silent_of_mem_spoken (hspoken ▸ List.mem_append_right front hn)

/-- A path can be looked up from the top too, or there are no links that it may lead through. -/
def Traceable (t : FileTree) (p : Path) : Prop := (t.absolute p).fault? = none ∨ t.Plain []

theorem Traceable.eq_of_resolve (h : t.Traceable p) (wf : t.WellFormed) (hfind : t.find p = .ok (l, e))
    (hresolve : t.resolve p = .ok m) : m = l := by
  rcases h with hwhole | hplain
  · exact Except.ok.inj (hresolve.symm.trans (resolve_of_find wf hwhole hfind))
  · rw [hplain.resolve_eq wf hresolve]
    exact (hplain.location_eq (follows_names_of_find hfind)).symm

/-- What making the directories of a path does that is resolved to a place: directories are made on the way to it.
Nothing was there before if the path led nowhere. -/
def Creates (t : FileTree) (p : Path) (place : Location) : Prop :=
  Ends (Disk.makeDirectories p) t fun r u => t.Grows u (· <+: place) ∧ (r = .ok () → u.Leads p place ∧
    (p.text ≠ [] → (∀ found, t.find p ≠ .ok found) → ∀ l, place <+: l → t.entry? l = none))

theorem creates_of_find (wf : t.WellFormed) (h : t.find p = .ok (l, e)) : t.Creates p l := by
  refine (ends_makeDirectories_of_find h).mono fun r u hu => ?_
  obtain ⟨rfl, hdir⟩ := hu
  obtain ⟨hfault, hfollows⟩ := find_eq_ok_iff.mp h
  have htext : p.text ≠ [] := fun htext => by simp [fault?, htext] at hfault
  refine ⟨.refl wf _, fun hok => ⟨.inr ?_, fun _ hnot => absurd h (hnot _)⟩⟩
  by_cases hparent : p.parent? = none
  · obtain rfl := eq_nil_of_parent?_eq_none hparent h
    obtain rfl := Option.some.inj hfollows.entry?_eq
    exact h
  · rw [← hdir hok htext hparent]
    exact h

/-- Without links, the names that are put below a place name the directories that are made there. -/
theorem Plain.creates (h : t.Plain []) (wf : t.WellFormed) (hparent : p.parent? ≠ none) (htext : p.text ≠ [])
    (hplace : t.resolve p = .ok place) : t.Creates p place := by
  have hlocate := h.resolve_eq wf hplace
  obtain ⟨front, ns, m, e, hspoken, hdots, hfront, rfl⟩ := exists_follows_of_resolve wf hplace
  have hplain : ∀ n ∈ ns, isSilent n = false ∧ n ≠ dots := fun n hn =>
    ⟨not_silent_of_mem_spoken (hspoken ▸ List.mem_append_right front hn), hdots n hn⟩
  refine (Disk.ends_makeDirectories (fun u => t.Grows u (· <+: m ++ ns)) ?_ (.refl wf _)).mono fun r u hu => ?_
  · -- Each directory that is made stands on the way: its names are a front of those of the path.
    intro up hup hne u v hgrows hmade
    obtain ⟨front', l, n, hmakes, rfl⟩ := makeDirectory_eq_ok hmade
    have hlinks : u.Plain [] := fun l target _ _ hlink => h.not_link l target (hgrows.link hlink)
    obtain ⟨e', hfront', -⟩ := hgrows.keeps.follows hfront
    rw [← hgrows.current] at hfront'
    obtain ⟨mid, rest, rfl, hfollows⟩ := hmakes.exists_spoken (isAbove_of_mem_ancestors hup hne) hspoken hfront'
    obtain ⟨j, -, hlast⟩ := hfollows.append (.inl rfl) hfront'
    have hl : l = m ++ mid :=
      (hlinks.location_eq hlast).trans (locate_eq_append fun n hn => hplain n (List.mem_append_left _ hn))
    exact hgrows.put hmakes (by simp [hl])
  · obtain ⟨hgrows, hdir⟩ := hu
    have hlinks : u.Plain [] := fun l target _ _ hlink => h.not_link l target (hgrows.link hlink)
    refine ⟨hgrows, fun hok => ?_⟩
    obtain ⟨l, hl⟩ := isDirectory_iff.mp (hdir hok htext hparent)
    have hfollows := follows_names_of_find hl
    obtain rfl : l = m ++ ns := by
      rw [hlocate, ← hgrows.current]
      exact hlinks.location_eq hfollows
    refine ⟨.inr hl, fun _ hnot l' hbelow => ?_⟩
    by_contra hsome
    -- The place was there before, so the path led to it.
    have hthere : t.entry? (m ++ ns) = some .directory := by
      rcases hgrows.entry? (m ++ ns) with hsame | ⟨-, hnone, -⟩
      · rw [← hsame, hfollows.entry?_eq]
      · exact absurd (wf.entry?_eq_none hnone hbelow) hsome
    obtain ⟨j, -, hfollow⟩ := hfront.follow_append
    have hall : t.Follows .entry linkLimit (p.start t.current) p.spoken (.present (m ++ ns) .directory) := by
      refine follows_of_follow ?_
      rw [hspoken, hfollow .entry ns (.inl rfl)]
      exact follow_of_follows (follows_location wf hthere)
    rw [spoken_eq] at hall
    exact hnot _ (find_of_follows_names (find_eq_ok_iff.mp hl).1 (hall.of_telling (.inl rfl)))

/-- The directories of a path are made on the way to the place it is resolved to. -/
theorem Traceable.creates (h : t.Traceable p) (wf : t.WellFormed) (hplace : t.resolve p = .ok place) :
    t.Creates p place := by
  by_cases htext : p.text = []
  · rw [Creates, Disk.makeDirectories, if_pos (by simp [htext])]
    exact ⟨.refl wf _, fun _ => ⟨.inl ⟨htext, eq_current_of_resolve wf htext hplace⟩, fun h => absurd htext h⟩⟩
  by_cases hparent : p.parent? = none
  · obtain ⟨rfl, hfind⟩ := find_of_parent?_eq_none hparent htext hplace
    exact creates_of_find wf hfind
  rcases h with hwhole | hplain
  · rcases resolve_eq_ok wf hwhole htext hplace with ⟨e, hfind⟩ | ⟨hnot, m, front, ns, hlacks, rfl⟩
    · exact creates_of_find wf hfind
    · refine (hlacks.ends_makeDirectories wf hnot hparent htext).mono fun r u hu => ?_
      exact ⟨hu.1, fun hok => ⟨.inr (hu.2 hok).1, fun _ _ => (hu.2 hok).2⟩⟩
  · exact hplain.creates wf hparent htext hplace

end Florin.FileTree
