import Florin.Proofs.FileTree.Landing
import Florin.Proofs.FileTree.Output
import Mathlib.Data.List.Infix

/-! # Output that spares a part

Names behind a path may lead into some part of a tree through links, or because the path leads above it. If they come
to lead outside of it, nothing that is made or written on their way lies in it, however the tree grows elsewhere.
-/
namespace Florin.FileTree
open Florin.Path

variable {v u w : FileTree} {p up : Path} {k : Nat} {l here place top : Location} {n last : Name} {e : Entry}
  {ns front mid steps : List Name} {found : Place} {purpose : Purpose} {bytes : ByteArray}

/-- The later tree has all that the earlier one has, no more links, and the same part. -/
structure Spares (v u : FileTree) (top : Location) : Prop where
  wellFormed : u.WellFormed
  keeps : v.Keeps u
  link : ∀ l target, u.entry? l = some (.link target) → v.entry? l = some (.link target)
  part : u.part top = v.part top

namespace Spares

theorem refl (wf : v.WellFormed) (top : Location) : v.Spares v top := ⟨wf, .refl v, fun _ _ h => h, rfl⟩

theorem put (h : v.Spares u top) (hfits : u.Fits l n e) (hout : ¬ top <+: l ++ [n]) :
    v.Spares (u.put (l ++ [n]) e) top where
  wellFormed := hfits.wellFormed h.wellFormed
  keeps := h.keeps.trans hfits.keeps
  link m target hm := by
    rw [entry?_put u e (by simp)] at hm
    split at hm
    · exact absurd (Option.some.inj hm) (hfits.not_link target)
    · exact h.link m target hm
  part := (part_put e hout).trans h.part

theorem sameLinks (h : v.Spares u top) : v.SameLinks u := by
  intro l target
  constructor
  · intro hlink
    obtain ⟨e, hentry, hlike⟩ := h.keeps.entry? l _ hlink
    rw [hentry, hlike.link]
  · exact h.link l target

end Spares

/-- Where names behind a path come to lead. -/
def reach (v : FileTree) (p : Path) (ns : List Name) : Option Location :=
  v.landing linkLimit (p.start v.current) (p.names ++ ns)

theorem Spares.reach_eq (h : v.Spares u top)
    (hfollows : u.Follows purpose linkLimit (p.start u.current) (p.names ++ mid) found) (hpurpose : purpose ≠ .link) :
    v.reach p mid = some found.location := by
  rw [h.keeps.current] at hfollows
  exact hfollows.landing_eq h.sameLinks hpurpose

theorem Leads.reach_eq (h : v.Leads p place) : v.reach p [] = some place := by
  rw [reach, List.append_nil]
  rcases h with ⟨htext, rfl⟩ | hfind
  · rw [names_of_text_eq_nil htext, start_of_text_eq_nil htext, landing]
  · exact (follows_names_of_find hfind).landing_eq (fun _ _ => Iff.rfl) (by decide)

theorem reach_eq_append (hplace : v.reach p [] = some place) (hplain : ∀ n ∈ ns, isSilent n = false ∧ n ≠ dots)
    (hlinks : ∀ front, front <+: ns → front ≠ [] → ∀ target, v.entry? (place ++ front) ≠ some (.link target)) :
    v.reach p ns = some (place ++ ns) := by
  rw [reach, List.append_nil] at hplace
  obtain ⟨j, -, hrest⟩ := landing_append hplace
  rw [reach, hrest]
  exact landing_eq_append hplain hlinks

/-- Neither the names behind a path nor any front of them come to lead to a part. -/
def Avoids (v : FileTree) (p : Path) (ns : List Name) (top : Location) : Prop :=
  ∀ front, front <+: ns → ∀ l, v.reach p front = some l → ¬ top <+: l

def avoids (v : FileTree) (p : Path) (ns : List Name) (top : Location) : Bool :=
  ns.inits.all fun front => (v.reach p front).all fun l => !top.isPrefixOf l

theorem Avoids.of_avoids (h : v.avoids p ns top = true) : v.Avoids p ns top := by
  intro front hfront l hl
  have hlooked := List.all_eq_true.mp h front ((List.mem_inits _ _).mpr hfront)
  have hnot : top.isPrefixOf l = false := by simpa [hl] using hlooked
  intro hbelow
  rw [List.isPrefixOf_iff_prefix.mpr hbelow] at hnot
  exact Bool.noConfusion hnot

/-- A path leads to a directory, and the names of an output behind it avoid a part that is there. -/
structure Outlet (v : FileTree) (p : Path) (ns : List Name) (top place : Location) : Prop where
  present : v.entry? top ≠ none
  leads : v.Leads p place
  avoids : v.Avoids p ns top

theorem Follows.entry_of_output (h : u.Follows .output k here steps found) : u.Follows .entry k here steps found := by
  induction h with
  | arrive h => exact .arrive h
  | stay h hn _ ih => exact .stay h hn ih
  | leave h _ ih => exact .leave h ih
  | free h hn hfree => exact .free h hn hfree
  | link _ _ _ hpurpose => exact absurd hpurpose (by decide)
  | through h hn _ hlink _ _ ih => exact .through h hn (by simp) hlink (by simp) ih
  | enter h hn _ hentry hlink _ ih => exact .enter h hn (by simp) hentry hlink ih

/-- Where a file was to be written is found once there is one. -/
theorem Follows.written (h : u.Follows .output k here steps found) (hkeeps : u.Keeps w)
    (hentry : w.entry? found.location = some (.file bytes)) :
    w.Follows .entry k here steps (.present found.location (.file bytes)) := by
  induction h with
  | arrive => exact .arrive hentry
  | stay h hn _ ih => exact .stay (hkeeps.directory h) hn (ih hentry)
  | leave h _ ih => exact .leave (hkeeps.directory h) (ih hentry)
  | free h hn _ => exact .enter (hkeeps.directory h) hn (by simp) hentry (by simp) (.arrive hentry)
  | link _ _ _ hpurpose => exact absurd hpurpose (by decide)
  | through h hn _ hlink _ _ ih =>
    obtain ⟨e, hlinked, hlike⟩ := hkeeps.entry? _ _ hlink
    rw [hlike.link] at hlinked
    exact .through (hkeeps.directory h) hn (by simp) hlinked (by simp) (ih hentry)
  | enter h hn _ hentered hlink _ ih =>
    obtain ⟨e, hkept, hlike⟩ := hkeeps.entry? _ _ hentered
    refine .enter (hkeeps.directory h) hn (by simp) hkept ?_ (ih hentry)
    rintro target rfl
    exact hlink target hlike.of_link

namespace Spares

theorem exists_reach (h : v.Spares u top) (hleads : v.Leads p place) (hout : OutputNames ns front last)
    (habove : up.IsAbove (p.join (ofNames ns))) {front' : List Name} (hmakes : u.Makes up l n front') :
    ∃ mid rest, ns = mid ++ n :: rest ∧ mid <+: front ∧ v.reach p mid = some l := by
  obtain ⟨mid, rest, hns, hmid, hfollows⟩ := hmakes.exists_names hout habove (hleads.keeps h.keeps)
  exact ⟨mid, rest, hns, hmid, h.reach_eq hfollows (by decide)⟩

theorem of_makes (h : v.Spares u top) (houtlet : v.Outlet p ns top place) (hout : OutputNames ns front last)
    (habove : up.IsAbove (p.join (ofNames ns))) {front' : List Name} (hmakes : u.Makes up l n front') :
    ¬ top <+: l ++ [n] := by
  obtain ⟨mid, rest, hns, -, hreach⟩ := h.exists_reach houtlet.leads hout habove hmakes
  have hl : ¬ top <+: l := houtlet.avoids mid (hns ▸ List.prefix_append _ _) l hreach
  intro hbelow
  rcases List.prefix_concat_iff.mp hbelow with rfl | hup
  · exact houtlet.present ((entry?_of_part h.part (List.prefix_refl _)).symm.trans hmakes.free)
  · exact hl hup

theorem reach_of_find (h : v.Spares u top) (hout : OutputNames ns front last)
    (hfind : u.find (p.join (ofNames ns)) = .ok (l, e)) : v.reach p ns = some l := by
  obtain ⟨-, hfollows⟩ := find_eq_ok_iff.mp hfind
  rw [steps_join p hout.ne_nil hout.all_spelled, start, isAbsolute_join p hout.all_spelled, ← start] at hfollows
  exact h.reach_eq hfollows (by decide)

/-- A file written for an output lies where the output comes to lead, and is found there. -/
theorem of_write (h : v.Spares u top) (hout : OutputNames ns front last)
    (hwrite : u.write (p.join (ofNames ns)) bytes = .ok w) :
    ∃ l n, u.Fits l n (.file bytes) ∧ v.reach p ns = some (l ++ [n]) ∧ w = u.put (l ++ [n]) (.file bytes) ∧
      w.find (p.join (ofNames ns)) = .ok (l ++ [n], .file bytes) := by
  obtain ⟨found, hlookup, hnot, rfl⟩ := write_eq_ok hwrite
  obtain ⟨hfault, hlooked⟩ := lookup_eq_ok_iff.mp hlookup
  have hfollows := hlooked
  rw [steps_join p hout.ne_nil hout.all_spelled, start, isAbsolute_join p hout.all_spelled, ← start] at hfollows
  have hreach := h.reach_eq hfollows (by decide)
  suffices hfits : ∃ l n, u.Fits l n (.file bytes) ∧ found.location = l ++ [n] by
    obtain ⟨l, n, hfits, hlocation⟩ := hfits
    have hentry : entry? (u.put (l ++ [n]) (.file bytes)) found.location = some (.file bytes) := by
      rw [entry?_put u _ (by simp), if_pos hlocation]
    have hwritten := hlooked.written hfits.keeps hentry
    rw [hlocation] at hreach hwritten ⊢
    exact ⟨l, n, hfits, hreach, rfl, find_eq_ok_iff.mpr ⟨hfault, hwritten⟩⟩
  cases found with
  | free l =>
    obtain ⟨m, n, rfl, hproper, hdir, hfree⟩ := hfollows.exists_free fun n hn => by
      rcases List.mem_append.mp hn with hn | hn
      · exact no_slash_of_mem_names hn
      · exact (hout.all_spelled n hn).no_slash
    exact ⟨m, n, ⟨hdir, hproper, fun old hold => absurd (hfree.symm.trans hold) (by simp), by simp⟩, rfl⟩
  | present l e =>
    have hentry := hfollows.entry?_eq
    have hlink : ∀ target, e ≠ .link target := by
      refine hfollows.entry_of_output.ne_link h.wellFormed fun target hstart => ?_
      have hdir := hfollows.directory_of_ne_nil (by simp [hout.ne_nil])
      exact absurd (hdir.symm.trans hstart) (by simp)
    rcases List.eq_nil_or_concat' l with rfl | ⟨m, n, rfl⟩
    · exact absurd (Option.some.inj hentry) (fun heq => hnot [] (by rw [heq]))
    · exact ⟨m, n, .of_entry h.wellFormed hentry (fun hdir => hnot _ (by rw [hdir])) hlink, rfl⟩

end Spares

end Florin.FileTree
