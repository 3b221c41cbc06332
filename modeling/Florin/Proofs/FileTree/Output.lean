import Florin.Proofs.FileTree.Clearing

/-! # Output below a path

The names of an output are joined to a path that leads to a directory. What is made on the way of an output has one of
these names, and what is made or written takes the place of nothing, or of a file if it is one itself.
-/
namespace Florin.FileTree
open Florin.Path

variable {t u : FileTree} {purpose : Purpose} {p up : Path} {k : Nat} {l m place : Location} {n : Name} {e : Entry}
  {ns front rest : List Name} {found : Place} {bytes : ByteArray}

/-- The names of an output. The last one alone may be no proper name; if it leads up, nothing can be written. -/
structure OutputNames (ns front : List Name) (last : Name) : Prop where
  eq : ns = front ++ [last]
  proper : ∀ n ∈ front, Proper n
  spelled : Spelled last
  ne_dot : last ≠ dot

namespace OutputNames

variable {last : Name}

theorem all_spelled (h : OutputNames ns front last) : ∀ n ∈ ns, Spelled n := by
  intro n hn
  rw [h.eq, List.mem_append, List.mem_singleton] at hn
  rcases hn with hn | rfl
  · exact (h.proper n hn).spelled
  · exact h.spelled

theorem ne_nil (h : OutputNames ns front last) : ns ≠ [] := by
  simp [h.eq]

theorem not_silent (h : OutputNames ns front last) : isSilent last = false := by
  simp [isSilent, h.spelled.ne_nil, h.ne_dot]

end OutputNames

/-- No links lie below a place. -/
def Plain (t : FileTree) (place : Location) : Prop :=
  ∀ l target, place <+: l → l ≠ place → t.entry? l ≠ some (.link target)

theorem Plain.of_entries (h : ∀ x ∈ t.entries, place <+: x.1 → ∀ target, x.2 ≠ .link target) : t.Plain place := by
  intro l target hl hne hlink
  refine h _ (mem_entries_of_entry?_eq (fun hnil => hne ?_) hlink) hl target rfl
  rw [hnil] at hl ⊢
  exact (List.prefix_nil.mp hl).symm

theorem Plain.not_link (h : t.Plain []) (l : Location) (target : Path) : t.entry? l ≠ some (.link target) := by
  intro hlink
  refine h l target List.nil_prefix ?_ hlink
  rintro rfl
  exact absurd hlink (by simp)

theorem Plain.location_eq (h : t.Plain []) {here : Location} {steps : List Name}
    (hfollows : t.Follows purpose k here steps found) : found.location = locate here steps :=
  hfollows.location_eq fun _ _ target => h.not_link _ target

/-- A path leads to a directory, or it is empty and the place is where paths start. -/
def Leads (t : FileTree) (p : Path) (place : Location) : Prop :=
  p.text = [] ∧ place = t.current ∨ t.find p = .ok (place, .directory)

theorem Leads.keeps (h : t.Leads p place) (hkeeps : t.Keeps u) : u.Leads p place := by
  rcases h with ⟨htext, rfl⟩ | hfind
  · exact .inl ⟨htext, hkeeps.current.symm⟩
  · obtain ⟨hfault, -⟩ := find_eq_ok_iff.mp hfind
    have hnames := hkeeps.follows_directory (follows_names_of_find hfind)
    rw [← hkeeps.current] at hnames
    exact .inr (find_of_follows_names hfault hnames)

theorem Keeps.find_file (hkeeps : t.Keeps u) (h : t.find p = .ok (l, .file bytes)) :
    ∃ bytes', u.find p = .ok (l, .file bytes') := by
  obtain ⟨hfault, hfollows⟩ := find_eq_ok_iff.mp h
  obtain ⟨e, hkept, hlike⟩ := hkeeps.follows hfollows
  obtain ⟨bytes', rfl⟩ := hlike.file
  rw [← hkeeps.current] at hkept
  exact ⟨bytes', find_eq_ok_iff.mpr ⟨hfault, hkept⟩⟩

theorem Leads.unique (h : t.Leads p l) (h' : t.Leads p m) : l = m := by
  have hfault : ∀ found, p.text = [] → t.find p ≠ .ok found := by
    intro found htext hfound
    have hnone := (find_eq_ok_iff.mp hfound).1
    simp [fault?, htext] at hnone
  rcases h with ⟨htext, rfl⟩ | hfind <;> rcases h' with ⟨htext', rfl⟩ | hfind'
  · rfl
  · exact absurd hfind' (hfault _ htext)
  · exact absurd hfind (hfault _ htext')
  · exact (Prod.mk.inj (Except.ok.inj (hfind.symm.trans hfind'))).1

theorem names_of_text_eq_nil (h : p.text = []) : p.names = [] := by
  simp [names, h, Text.splitOn]

theorem start_of_text_eq_nil (h : p.text = []) (here : Location) : p.start here = here := by
  simp [start, isAbsolute, h]

/-- A directory made on the way of an output has one of its names, behind the path. -/
theorem Makes.exists_names {last : Name} {front' : List Name} (hmakes : t.Makes up l n front')
    (hout : OutputNames ns front last) (habove : up.IsAbove (p.join (ofNames ns)))
    (hleads : t.Leads p place) :
    ∃ mid rest, ns = mid ++ n :: rest ∧ mid <+: front ∧
      t.Follows .entry linkLimit (p.start t.current) (p.names ++ mid) (.present l .directory) := by
  obtain ⟨more, hmore⟩ := habove.2
  have hfollows := hmakes.follows
  rw [start, habove.1, isAbsolute_join p hout.all_spelled] at hfollows
  rw [names_join p hout.all_spelled, hmakes.names, List.append_assoc, List.singleton_append] at hmore
  have hprefix : ∀ mid, ns = mid ++ n :: more → mid <+: front := by
    intro mid hns
    have hfront := congrArg List.dropLast (hout.eq.symm.trans hns)
    rw [List.dropLast_concat, List.dropLast_append_of_ne_nil (List.cons_ne_nil n more)] at hfront
    exact hfront ▸ List.prefix_append _ _
  rcases List.append_eq_append_iff.mp hmore with ⟨mid, hmid, hns⟩ | ⟨mid, hmid, hns⟩
  · cases mid with
    | nil =>
      rw [List.append_nil] at hmid
      rw [← hmid, ← List.append_nil p.names] at hfollows
      exact ⟨[], more, hns.symm, List.nil_prefix, hfollows⟩
    | cons first mid =>
      -- The name is one of the path itself, and is there.
      obtain ⟨rfl, -⟩ := List.cons.inj hns
      rcases hleads with ⟨htext, -⟩ | hfind
      · rw [names_of_text_eq_nil htext] at hmid
        exact absurd hmid (by simp)
      · have hnames := follows_names_of_find hfind
        rw [hmid, List.append_cons] at hnames
        obtain ⟨m', e', hfront⟩ := hnames.exists_front (.inl rfl) (by simp)
        obtain ⟨j, -, hlast⟩ := hfront.append (.inl rfl) hfollows
        exact absurd hlast hmakes.not_follows
  · rw [hmid] at hfollows
    exact ⟨mid, _, hns, hprefix mid hns, hfollows⟩

/-- An entry can be put under a name of a directory: in place of nothing, or of a file if it is one itself. -/
structure Fits (t : FileTree) (l : Location) (n : Name) (e : Entry) : Prop where
  directory : t.entry? l = some .directory
  proper : Proper n
  like : ∀ old, t.entry? (l ++ [n]) = some old → old.Like e ∧ old ≠ .directory
  not_link : ∀ target, e ≠ .link target

theorem Makes.fits {front' : List Name} (h : t.Makes up l n front') : t.Fits l n .directory where
  directory := h.follows.entry?_eq
  proper := h.proper
  like old hold := absurd (h.free.symm.trans hold) (by simp)
  not_link := by simp

namespace Fits

theorem of_entry {old : Entry} (wf : t.WellFormed) (h : t.entry? (l ++ [n]) = some old) (hdir : old ≠ .directory)
    (hlink : ∀ target, old ≠ .link target) : t.Fits l n (.file bytes) where
  directory := wf.parents l n (Option.ne_none_iff_exists'.mpr ⟨old, h⟩)
  proper := wf.names (Option.ne_none_iff_exists'.mpr ⟨old, h⟩) n (by simp)
  like old' hold := by
    obtain rfl := Option.some.inj (h.symm.trans hold)
    cases old with
    | file bytes => simp [Entry.Like]
    | directory => exact absurd rfl hdir
    | link target => exact absurd rfl (hlink target)
  not_link := by simp

theorem keeps (h : t.Fits l n e) : t.Keeps (t.put (l ++ [n]) e) where
  current := rfl
  entry? m old hold := by
    rw [entry?_put t e (by simp)]
    split
    · rename_i hm
      exact ⟨e, rfl, (h.like old (hm ▸ hold)).1⟩
    · exact ⟨old, hold, .refl old⟩

theorem wellFormed (h : t.Fits l n e) (wf : t.WellFormed) : (t.put (l ++ [n]) e).WellFormed :=
  wf.put h.directory h.proper fun hdir => (h.like _ hdir).2 rfl

end Fits

theorem write_eq_ok (h : t.write p bytes = .ok u) : ∃ found, t.lookup .output p = .ok found ∧
    (∀ l, found ≠ .present l .directory) ∧ u = t.put found.location (.file bytes) := by
  rw [write, target] at h
  split at h
  · exact absurd h (by simp)
  · rename_i l htarget
    split at htarget
    · exact absurd htarget (by simp)
    · exact absurd htarget (by simp)
    · rename_i found hnot hlookup
      refine ⟨found, hlookup, fun l' hl' => hnot l' hl', ?_⟩
      rw [Except.ok.inj htarget]
      exact (Except.ok.inj h).symm

theorem Follows.of_dots {here : Location} (h : t.Follows purpose k here (front ++ [dots]) found)
    (wf : t.WellFormed) : ∃ l, found = .present l .directory := by
  obtain ⟨m, e, hfront⟩ := h.exists_front (.inr ⟨by simp, by decide⟩) (by simp)
  obtain ⟨j, -, hlast⟩ := h.append (.inr ⟨by simp, by decide⟩) hfront
  cases hlast with
  | stay _ hn => exact absurd hn (by decide)
  | leave hdir hrest =>
    cases hrest with
    | @arrive _ _ e' he' =>
      have hup := wf.dropLast (Option.ne_none_iff_exists'.mpr ⟨_, hdir⟩)
      obtain rfl := Option.some.inj (hup.symm.trans he')
      exact ⟨_, rfl⟩
  | free _ hn => exact absurd rfl hn.ne_dots
  | link _ hn => exact absurd rfl hn.ne_dots
  | through _ hn => exact absurd rfl hn.ne_dots
  | enter _ hn => exact absurd rfl hn.ne_dots

theorem OutputNames.plain_of_find {last : Name} (h : OutputNames ns front last) (wf : t.WellFormed)
    (hfind : t.find (p.join (ofNames ns)) = .ok (l, .file bytes)) : ∀ n ∈ ns, isSilent n = false ∧ n ≠ dots := by
  obtain ⟨-, hfollows⟩ := find_eq_ok_iff.mp hfind
  have hdots : last ≠ dots := by
    rintro rfl
    rw [steps_join p h.ne_nil h.all_spelled, h.eq, ← List.append_assoc] at hfollows
    obtain ⟨m, hup⟩ := hfollows.of_dots wf
    exact absurd (Place.present.inj hup).2 (by simp)
  intro n hn
  rw [h.eq, List.mem_append, List.mem_singleton] at hn
  rcases hn with hn | rfl
  · exact ⟨(h.proper n hn).not_silent, (h.proper n hn).ne_dots⟩
  · exact ⟨h.not_silent, hdots⟩

/-- The names of an output say nothing that is above the place they start from, but for one that leads up at the end. -/
theorem OutputNames.locate_prefix {last : Name} (h : OutputNames ns front last) {pre : List Name} (hpre : pre <+: ns)
    (here : Location) : ∃ more, locate here pre <+: here ++ more := by
  have hplain : ∀ mid, mid <+: front → locate here mid = here ++ mid := fun mid hmid =>
    locate_eq_append fun n hn => ⟨(h.proper n (hmid.subset hn)).not_silent, (h.proper n (hmid.subset hn)).ne_dots⟩
  rw [h.eq] at hpre
  rcases List.prefix_concat_iff.mp hpre with rfl | hpre
  · rw [locate_append, hplain front (List.prefix_refl _), locate, h.not_silent]
    refine ⟨front ++ [last], ?_⟩
    by_cases hdots : last = dots
    · simp only [hdots, locate]
      exact (List.dropLast_prefix _).trans (by simp)
    · simp only [hdots, locate]
      simp
  · exact ⟨pre, by rw [hplain pre hpre]⟩

end Florin.FileTree
