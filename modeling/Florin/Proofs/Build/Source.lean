import Florin.Proofs.Build.Actions
import Florin.Proofs.FileTree.Creating
import Florin.Proofs.FileTree.Listing
import Florin.Proofs.FileTree.Sparing
import Mathlib

/-! # The source of a build

A build makes directories and writes files on the way of its outputs only. If none of these leads into the source
when the walk starts, none ever does, and the build leaves the source as it was, whether it succeeds or not.
-/
namespace Florin.Build
open FileTree Florin.Path

variable {c : Config} {t u v : FileTree} {p output path : Path} {place source l : Location} {s : State}
  {I : FileTree → Prop} {file ns front names : List Name} {last n : Name} {e : Entry}

abbrev OfTree (I : FileTree → Prop) (s : State) : Prop := I s.tree

/-- What is known of the tree stays known when an output is written. -/
structure Admits (output : Path) (I : FileTree → Prop) : Prop extends Takes output I where
  file : ∀ t u bytes, I t → t.write output bytes = .ok u → I u

namespace Admits

theorem ends_writeFile (h : Admits output I) (bytes : ByteArray) (ht : I t) :
    Ends (Disk.writeFile output bytes) t fun _ u => I u := by
  rw [Build.ends_writeFile]
  split
  · rename_i u hwrite
    exact h.file t u bytes ht hwrite
  · exact ht

theorem ends_copy (h : Admits output I) (path : Path) (ht : I t) : Ends (Disk.copy path output) t fun _ u => I u := by
  rw [Disk.copy, ends_bind, ends_get]
  dsimp only
  split
  · exact ht
  · refine (h.ends_writeFile _ ht).bind_keeps fun _ u hu => ?_
    rw [ends_bind, ends_get]
    dsimp only
    split
    · exact hu
    · exact h.ends_writeFile _ hu

theorem ends_transformFile (h : Admits output I) (path : Path) (hs : I s.tree) :
    Ends (transformFile c path output) s fun _ s' => I s'.tree := by
  rw [transformFile]
  refine Ends.bind_keeps (I := OfTree I) ?_ fun text s hs => ?_
  · rw [ends_onDisk, ends_readText]
    exact hs
  refine Ends.bind_keeps (I := OfTree I) (ends_forM (OfTree I) (fun _ _ s hs => hs) hs) fun _ s hs => ?_
  refine Ends.bind_keeps (I := OfTree I) (ends_forM (OfTree I) (fun _ _ s hs => hs) hs) fun _ s hs => ?_
  refine Ends.bind_keeps (I := OfTree I) ((h.ends_ensureParent hs).mono fun _ _ hs => hs.1) fun _ s hs => ?_
  refine Ends.bind_keeps (I := OfTree I) ?_ fun _ s hs => hs
  rw [ends_onDisk]
  exact h.ends_writeFile _ hs

theorem ends_copyFile (h : Admits output I) (path : Path) (hs : I s.tree) :
    Ends (copyFile path output) s fun _ s' => I s'.tree := by
  rw [copyFile]
  refine Ends.bind_keeps (I := OfTree I) ((h.ends_ensureParent hs).mono fun _ _ hs => hs.1) fun _ s hs => ?_
  refine Ends.bind_keeps (I := OfTree I) ?_ fun _ s hs => hs
  rw [ends_onDisk]
  exact h.ends_copy path hs

theorem ends_buildFile (h : Admits (outputPath c file) I) (path : Path) (hs : I s.tree) :
    Ends (buildFile c path file) s fun _ s' => I s'.tree := by
  rw [buildFile]
  split
  · exact h.ends_transformFile path hs
  · exact h.ends_copyFile path hs

end Admits

/-- An output that avoids the source leaves it as it is. -/
theorem admits_spares (houtlet : v.Outlet p ns source place) (hout : OutputNames ns front last) :
    Admits (p.join (ofNames ns)) fun u => v.Spares u source where
  directory u up l n front' hu habove hmakes := hu.put hmakes.fits (hu.of_makes houtlet hout habove hmakes)
  file u w bytes hu hwrite := by
    obtain ⟨l, n, hfits, hreach, rfl, -⟩ := hu.of_write hout hwrite
    exact hu.put hfits (houtlet.avoids ns (List.prefix_refl _) _ hreach)

/-- Wherever the tree grows to, a path leads nowhere but to one location. -/
def Fixed (v : FileTree) (source : Location) (path : Path) (l : Location) : Prop :=
  ∀ u, v.Spares u source → ∀ m e, u.Follows .entry linkLimit (path.start u.current) path.names (.present m e) → m = l

theorem Fixed.of_find (h : v.find path = .ok (l, e)) (source : Location) : Fixed v source path l := by
  intro u hu m e' hfollows
  obtain ⟨e'', hkept, -⟩ := hu.keeps.follows (follows_names_of_find h)
  rw [← hu.keeps.current] at hkept
  exact (Place.present.inj (hfollows.unique hkept)).1

theorem Fixed.join (h : Fixed v source path l) (hbelow : source <+: l ++ [n]) (hn : Proper n)
    (hlink : ∀ target, v.entry? (l ++ [n]) ≠ some (.link target)) : Fixed v source (path.join ⟨n⟩) (l ++ [n]) := by
  intro u hu m e hfollows
  have hspelled : ∀ m ∈ [n], Spelled m := by simp [hn.spelled]
  change u.Follows .entry linkLimit ((path.join (ofNames [n])).start u.current) (path.join (ofNames [n])).names
    (.present m e) at hfollows
  rw [start, isAbsolute_join path hspelled, names_join path hspelled, ← start] at hfollows
  obtain ⟨k, e', hfront⟩ := hfollows.exists_front (.inl rfl) (by simp)
  obtain rfl := h u hu k e' hfront
  obtain ⟨j, -, hlast⟩ := hfollows.append (.inl rfl) hfront
  exact hlast.location_eq_append (fun m hm => by simp [List.mem_singleton.mp hm, hn.not_silent, hn.ne_dots])
    fun front hfront hne target hentry => by
      obtain ⟨m, rest, rfl⟩ := List.exists_cons_of_ne_nil hne
      obtain ⟨rfl, hrest⟩ := List.cons_prefix_cons.mp hfront
      rw [List.prefix_nil.mp hrest, entry?_of_part hu.part hbelow] at hentry
      exact hlink target hentry

/-- A walk through the source, none of whose files has an output that leads into it, leaves it as it is. -/
theorem ends_walk (wf : v.WellFormed)
    (houtlet : ∀ file, (v.contents (source ++ file)).isSome = true → v.Outlet c.distro (outputNames file) source place)
    (depth : Nat) (hfixed : Fixed v source path (source ++ names)) (hs : v.Spares s.tree source) :
    Ends (walk c depth path names) s fun _ s' => v.Spares s'.tree source := by
  induction depth generalizing path names s with
  | zero => exact hs
  | succ depth ih =>
    rw [walk, ends_bind]
    refine ends_list.mono fun r s' hr => ?_
    obtain ⟨rfl, hinside⟩ := hr
    cases r with
    | error e => exact hs
    | ok inside =>
      obtain ⟨l, hfind, rfl⟩ := hinside inside rfl
      obtain rfl := hfixed _ hs l _ (follows_names_of_find hfind)
      -- Whatever was written so far, the directory holds what it held when the walk started.
      rw [children_of_part hs.part (List.prefix_append _ _)]
      refine ends_forM (OfTree fun u => v.Spares u source) (fun x hx s hs => ?_) hs
      obtain ⟨n, e⟩ := x
      have hentry := wf.mem_children.mp hx
      have hproper := wf.names (Option.ne_none_iff_exists'.mpr ⟨e, hentry⟩)
      cases e with
      | directory =>
        have hjoined := hfixed.join (by simp) (hproper n (by simp)) fun target hlink =>
          absurd (hentry.symm.trans hlink) (by simp)
        rw [List.append_assoc] at hjoined
        exact ih hjoined hs
      | file bytes =>
        obtain ⟨last, hout⟩ := exists_outputNames (fun (m : Name) (hm : m ∈ names) => hproper m (by simp [hm]))
          (hproper n (by simp))
        rw [List.append_assoc] at hentry
        exact (admits_spares (houtlet _ (by simp [contents_eq_some.mpr hentry])) hout).ends_buildFile _ hs
      | link target => exact hs

theorem ends_walk_of_not_find (depth : Nat) (h : ∀ found, s.tree.find path ≠ .ok found) :
    Ends (walk c depth path names) s fun _ s' => s' = s := by
  cases depth with
  | zero => rfl
  | succ depth =>
    rw [walk, ends_bind]
    refine ends_list.mono fun r s' hr => ?_
    obtain ⟨rfl, hinside⟩ := hr
    cases r with
    | error e => rfl
    | ok inside =>
      obtain ⟨l, hfind, -⟩ := hinside inside rfl
      exact absurd hfind (h _)

theorem ends_checkDisjoint : Ends (checkDisjoint c) s fun r s' => s' = s ∧ (r = .ok () →
    ∃ from_ to_, s.tree.resolve c.source = .ok from_ ∧ s.tree.resolve c.distro = .ok to_ ∧ ¬ from_ <+: to_ ∧
      (c.clean = true → ¬ to_ <+: from_)) := by
  rw [checkDisjoint, ends_bind, ends_get]
  dsimp only
  split
  · exact ⟨rfl, fun hok => absurd hok (by simp)⟩
  · exact ⟨rfl, fun hok => absurd hok (by simp)⟩
  · rename_i from_ to_ hfrom hto
    split
    · exact ⟨rfl, fun hok => absurd hok (by simp)⟩
    · rename_i hinside
      split
      · exact ⟨rfl, fun hok => absurd hok (by simp)⟩
      · rename_i hdeletes
        refine ⟨rfl, fun _ => ⟨from_, to_, hfrom, hto, by simpa using hinside, ?_⟩⟩
        simpa using hdeletes

/-- The step that cleans, for the tree that a build starts in. -/
def clear (c : Config) (t : FileTree) : Action Unit :=
  if c.clean && t.isPresent c.distro then onDisk (.clean c.distro) (Disk.removeAll c.distro) else pure ()

def cleaned (c : Config) (t : FileTree) : FileTree :=
  if c.clean && t.isPresent c.distro then ((Disk.removeAll c.distro).run.run t).2 else t

theorem ends_clear : Ends (clear c s.tree) s fun _ s' => s' = { s with tree := cleaned c s.tree } := by
  rw [clear, cleaned]
  split
  · rw [ends_onDisk]
    rfl
  · rfl

/-- What is left to do once the tree is cleaned. -/
def fill (c : Config) : Action Unit := do
  onDisk (.create c.distro) (Disk.makeDirectories c.distro)
  walk c depthLimit c.source []
  let r := (← get).report
  log ⟨.info, logTarget,
    "built " ++ c.source.toString ++ " into " ++ c.distro.toString,
    [("transformed", .number r.transformed.length), ("copied", .number r.copied.length)]⟩

theorem build_eq (c : Config) : build c = get >>= fun s =>
    if !s.tree.isDirectory c.source then throw (.noSource c.source)
    else checkDisjoint c >>= fun _ => clear c s.tree >>= fun _ => fill c := by
  rw [build]
  refine bind_congr fun s => ?_
  dsimp only
  split
  · rfl
  · refine bind_congr fun _ => ?_
    rw [clear]
    split
    · rfl
    · rw [pure_bind]
      rfl

theorem ends_fill {Q : Except BuildError Unit → FileTree → Report → Prop}
    (h : Ends (Disk.makeDirectories c.distro) s.tree fun r u => (∀ e, Q (.error e) u s.report) ∧
      (r = .ok () → Ends (walk c depthLimit c.source []) { s with tree := u } fun r s' => Q r s'.tree s'.report)) :
    Ends (fill c) s fun r s' => Q r s'.tree s'.report := by
  rw [fill, ends_bind, ends_onDisk]
  refine h.mono fun r u hu => ?_
  cases r with
  | error e => exact hu.1 _
  | ok =>
    dsimp only [Except.mapError]
    rw [ends_bind]
    refine (hu.2 rfl).mono fun r s' hr => ?_
    cases r with
    | error e => exact hr
    | ok => exact hr

theorem ends_build {Q : Except BuildError Unit → FileTree → Report → Prop} (hs : ∀ e, Q (.error e) s.tree s.report)
    (hrun : s.tree.isDirectory c.source = true → (Ends (checkDisjoint c) s fun r _ => r = .ok ()) →
      (∀ e, Q (.error e) (cleaned c s.tree) s.report) ∧ ((Ends (clear c s.tree) s fun r _ => r = .ok ()) →
        Ends (Disk.makeDirectories c.distro) (cleaned c s.tree) fun r u => (∀ e, Q (.error e) u s.report) ∧
          (r = .ok () → Ends (walk c depthLimit c.source []) { s with tree := u } fun r s' => Q r s'.tree s'.report))) :
    Ends (build c) s fun r s' => Q r s'.tree s'.report := by
  rw [build_eq, ends_bind, ends_get]
  dsimp only
  split
  · exact hs _
  · rename_i hsource
    rw [ends_bind]
    refine (ends_checkDisjoint.and (R := fun r _ => r = ((checkDisjoint c).run.run s).1) rfl).mono fun r s' hr => ?_
    obtain ⟨⟨rfl, -⟩, hchecked⟩ := hr
    cases r with
    | error e => exact hs e
    | ok =>
      obtain ⟨hfailed, hgo⟩ := hrun (by simpa using hsource) hchecked.symm
      dsimp only
      rw [ends_bind]
      refine (ends_clear.and (R := fun r _ => r = ((clear c s'.tree).run.run s').1) rfl).mono fun r s'' hr => ?_
      obtain ⟨rfl, hcleared⟩ := hr
      cases r with
      | error e => exact hfailed e
      | ok => exact ends_fill (hgo hcleared.symm)

/-- Cleaning changes nothing, or takes a link away, or clears the directory that the output path leads to. -/
theorem cleaned_cases (wf : t.WellFormed) (c : Config) : cleaned c t = t ∨
    (∃ l target, c.clean = true ∧ t.lookup .link c.distro = .ok (.present l (.link target)) ∧ cleaned c t = t.erase l) ∨
      ∃ l, c.clean = true ∧ t.lookup .link c.distro = .ok (.present l .directory) ∧ t.Cleared (cleaned c t) l := by
  rw [cleaned]
  split
  · rename_i hclean
    rw [Bool.and_eq_true] at hclean
    rcases ends_removeAll wf c.distro with ⟨heq, -⟩ | ⟨l, target, hlookup, heq⟩ | ⟨l, hlookup, hcleared⟩
    · exact .inl heq
    · exact .inr (.inl ⟨l, target, hclean.1, hlookup, heq⟩)
    · exact .inr (.inr ⟨l, hclean.1, hlookup, hcleared⟩)
  · exact .inl rfl

theorem wellFormed_cleaned (wf : t.WellFormed) (c : Config) : (cleaned c t).WellFormed := by
  rcases cleaned_cases wf c with heq | ⟨l, target, -, hlookup, heq⟩ | ⟨l, -, -, hcleared⟩
  · rw [heq]
    exact wf
  · obtain ⟨-, hfollows⟩ := lookup_eq_ok_iff.mp hlookup
    have hlink := hfollows.entry?_eq
    rw [heq]
    refine wf.erase ?_ fun n => ?_
    · rintro rfl
      exact absurd hlink (by simp)
    · by_contra hn
      exact absurd (hlink.symm.trans (wf.parents l n hn)) (by simp)
  · exact hcleared.wellFormed

theorem current_cleaned (wf : t.WellFormed) (c : Config) : (cleaned c t).current = t.current := by
  rcases cleaned_cases wf c with heq | ⟨l, target, -, -, heq⟩ | ⟨l, -, -, hcleared⟩
  · rw [heq]
  · rw [heq]
    rfl
  · exact hcleared.remains.current

theorem plain_cleaned (wf : t.WellFormed) (hplain : t.Plain []) (c : Config) : (cleaned c t).Plain [] := by
  rcases cleaned_cases wf c with heq | ⟨l, target, -, hlink, -⟩ | ⟨l, -, -, hcleared⟩
  · rw [heq]
    exact hplain
  · exact absurd (lookup_eq_ok_iff.mp hlink).2.entry?_eq (hplain.not_link l target)
  · exact fun m target _ _ hm => hplain.not_link m target (hcleared.remains.within m _ hm)

theorem traceable_cleaned (wf : t.WellFormed) (h : t.Traceable p) (c : Config) : (cleaned c t).Traceable p := by
  refine h.imp (fun hwhole => ?_) fun hplain => plain_cleaned wf hplain c
  rw [absolute, current_cleaned wf c]
  exact hwhole

/-- The checks that passed have found where the two directories are. -/
theorem exists_place (htraceable : s.tree.Traceable c.source) (wf : s.tree.WellFormed)
    (hsource : s.tree.find c.source = .ok (source, e)) (hchecked : Ends (checkDisjoint c) s fun r _ => r = .ok ()) :
    ∃ place, s.tree.resolve c.distro = .ok place ∧ ¬ source <+: place ∧ (c.clean = true → ¬ place <+: source) := by
  obtain ⟨from_, place, hfrom, hplace, hinside, hdeletes⟩ := ends_checkDisjoint.2 hchecked
  obtain rfl := htraceable.eq_of_resolve wf hsource hfrom
  exact ⟨place, hplace, hinside, hdeletes⟩

/-- The tree that a walk starts in. -/
def opened (c : Config) (t : FileTree) : FileTree := ((Disk.makeDirectories c.distro).run.run (cleaned c t)).2

/-- What is written lies outside of the source. The two directories are compared by where they are. A link that cleaning
takes away is none of the source's. After the cleaning the output path leads outside of the source; or it led to a
directory before, and leads there again once what is missing of it is made. When the walk starts, the source is where it
was, and no output of a file and no directory on the way of one comes to lead into the source. -/
structure Separate (c : Config) (t : FileTree) (source : Location) : Prop where
  traceable : t.Traceable c.source ∧ t.Traceable c.distro
  link : c.clean = true → ∀ l target, t.lookup .link c.distro = .ok (.present l (.link target)) → ¬ source <+: l
  place : ∃ place, ¬ source <+: place ∧ ((cleaned c t).resolve c.distro = .ok place ∨
    t.lookup .link c.distro = .ok (.present place .directory) ∧ t.Plain place)
  walked : ∀ l e, (opened c t).find c.source = .ok (l, e) → l = source
  avoids : ∀ file, (t.contents (source ++ file)).isSome = true →
    (opened c t).Avoids c.distro (outputNames file) source

/-- The directories of a path that led to a directory, and was cleared, are made again. -/
theorem ends_create_again {before : FileTree} (hcleared : before.Cleared t place)
    (hlookup : before.lookup .link p = .ok (.present place .directory)) (hplain : before.Plain place)
    (hne : place ≠ []) :
    Ends (Disk.makeDirectories p) t fun r u => t.Grows u (place <+: ·) ∧ (r = .ok () → u.Leads p place) := by
  have hfind := find_of_lookup_link hlookup
  obtain ⟨hfault, hfollows⟩ := find_eq_ok_iff.mp hfind
  have htext : p.text ≠ [] := fun htext => by simp [fault?, htext] at hfault
  have hparent : p.parent? ≠ none := fun hnone =>
    hne (eq_nil_of_parent?_eq_none hnone hfind)
  have hlinks : ∀ l target, place <+: l → before.entry? l ≠ some (.link target) := by
    intro l target hl hlink
    by_cases heq : l = place
    · rw [heq, hfollows.entry?_eq] at hlink
      exact absurd hlink (by simp)
    · exact hplain l target hl heq hlink
  refine (hcleared.remains.ends_makeDirectories hfind hlinks hcleared.wellFormed hparent htext).mono fun r u hu => ?_
  exact ⟨hu.1, fun hok => .inr (hu.2 hok)⟩

namespace Separate

theorem part_cleaned (h : Separate c t source) (wf : t.WellFormed) (hsource : t.find c.source = .ok (source, e))
    (hchecked : Ends (checkDisjoint c) s fun r _ => r = .ok ()) (hs : s.tree = t) :
    (cleaned c t).part source = t.part source := by
  subst hs
  obtain ⟨to_, hto, hinside, hdeletes⟩ := exists_place h.traceable.1 wf hsource hchecked
  rcases cleaned_cases wf c with heq | ⟨l, target, hclean, hlink, heq⟩ | ⟨l, hclean, hdir, hcleared⟩
  · rw [heq]
  · rw [heq]
    exact part_erase (h.link hclean l target hlink)
  · obtain rfl := h.traceable.2.eq_of_resolve wf (find_of_lookup_link hdir) hto
    exact hcleared.part source ⟨hinside, hdeletes hclean⟩

theorem ends_create (h : Separate c t source) (wf : t.WellFormed) (hsource : t.find c.source = .ok (source, e))
    (hchecked : Ends (checkDisjoint c) s fun r _ => r = .ok ()) (hs : s.tree = t) : ∃ place, ¬ source <+: place ∧
      Ends (Disk.makeDirectories c.distro) (cleaned c t) fun r u => u.WellFormed ∧
        u.part source = (cleaned c t).part source ∧ (r = .ok () → u.Leads c.distro place) := by
  subst hs
  obtain ⟨place, hout, hplace⟩ := h.place
  obtain ⟨to_, hto, -, hdeletes⟩ := exists_place h.traceable.1 wf hsource hchecked
  refine ⟨place, hout, ?_⟩
  have hresolved : (cleaned c s.tree).resolve c.distro = .ok place →
      Ends (Disk.makeDirectories c.distro) (cleaned c s.tree) fun r u => u.WellFormed ∧
        u.part source = (cleaned c s.tree).part source ∧ (r = .ok () → u.Leads c.distro place) := by
    intro hplace
    refine ((traceable_cleaned wf h.traceable.2 c).creates (wellFormed_cleaned wf c) hplace).mono fun r u hu => ?_
    exact ⟨hu.1.wellFormed, hu.1.part source fun l hl hbelow => hout (hbelow.trans hl), fun hok => (hu.2 hok).1⟩
  rcases hplace with hplace | ⟨hlookup, hplain⟩
  · exact hresolved hplace
  · obtain rfl := h.traceable.2.eq_of_resolve wf (find_of_lookup_link hlookup) hto
    rcases cleaned_cases wf c with heq | ⟨l, target, -, hlink, -⟩ | ⟨l, hclean, hdir, hcleared⟩
    · refine hresolved ?_
      rw [heq]
      exact hto
    · exact absurd (hlookup.symm.trans hlink) (by simp)
    · obtain ⟨rfl, -⟩ := Place.present.inj (Except.ok.inj (hlookup.symm.trans hdir))
      have hapart : ¬ to_ <+: source := hdeletes hclean
      -- What is made again lies below the place of the output, and the source lies apart from it.
      refine (ends_create_again hcleared hlookup hplain fun hnil => hapart (hnil ▸ List.nil_prefix)).mono
        fun r u hu => ⟨hu.1.wellFormed, hu.1.part source fun l hl hbelow => ?_, hu.2⟩
      exact (List.prefix_or_prefix_of_prefix hl hbelow).elim hapart hout

/-- When the walk starts the source is as it was, and no output leads into it. -/
theorem ends_opened (h : Separate c t source) (wf : t.WellFormed) (hsource : t.find c.source = .ok (source, e))
    (hchecked : Ends (checkDisjoint c) s fun r _ => r = .ok ()) (hs : s.tree = t) :
    Ends (Disk.makeDirectories c.distro) (cleaned c t) fun r u => u = opened c t ∧ u.part source = t.part source ∧
      (r = .ok () → u.WellFormed ∧ ∃ place, u.Leads c.distro place ∧
        ∀ file, (u.contents (source ++ file)).isSome = true → u.Outlet c.distro (outputNames file) source place) := by
  have hcleaned := h.part_cleaned wf hsource hchecked hs
  obtain ⟨place, hout, hcreate⟩ := h.ends_create wf hsource hchecked hs
  have hopened : Ends (Disk.makeDirectories c.distro) (cleaned c t) fun _ u => u = opened c t := rfl
  refine (hcreate.and hopened).mono fun r u hu => ?_
  obtain ⟨⟨hwf, hpart, hleads⟩, rfl⟩ := hu
  have hsame := hpart.trans hcleaned
  refine ⟨rfl, hsame, fun hok => ⟨hwf, place, hleads hok, fun file hfile => ?_⟩⟩
  rw [contents_of_part hsame (List.prefix_append _ _)] at hfile
  refine ⟨?_, hleads hok, h.avoids file hfile⟩
  rw [entry?_of_part hsame (List.prefix_refl _), (find_eq_ok_iff.mp hsource).2.entry?_eq]
  exact Option.some_ne_none e

end Separate

theorem ends_build_part (wf : s.tree.WellFormed) {e : Entry} (hsource : s.tree.find c.source = .ok (source, e))
    (hseparate : (Ends (checkDisjoint c) s fun r _ => r = .ok ()) → Separate c s.tree source) :
    Ends (build c) s fun _ s' => s'.tree.part source = s.tree.part source := by
  refine ends_build (Q := fun _ u _ => u.part source = s.tree.part source) (fun _ => rfl) fun _ hchecked => ?_
  have hsep := hseparate hchecked
  refine ⟨fun _ => hsep.part_cleaned wf hsource hchecked rfl, fun _ => ?_⟩
  refine (hsep.ends_opened wf hsource hchecked rfl).mono fun r u hu => ?_
  obtain ⟨rfl, hsame, houtlets⟩ := hu
  refine ⟨fun _ => hsame, fun hok => ?_⟩
  obtain ⟨hwf, place, -, houtlet⟩ := houtlets hok
  by_cases hfound : ∃ l e, (opened c s.tree).find c.source = .ok (l, e)
  · obtain ⟨l, e', hfind⟩ := hfound
    obtain rfl := hsep.walked l e' hfind
    -- Nothing that is written takes the source path elsewhere, since the tree only grows.
    have hfixed : Fixed (opened c s.tree) l c.source (l ++ []) := by
      rw [List.append_nil]
      exact .of_find hfind l
    exact (ends_walk hwf houtlet depthLimit hfixed (.refl hwf l)).mono fun r s' hs' => hs'.part.trans hsame
  · refine (ends_walk_of_not_find depthLimit fun found hfind => hfound ⟨_, _, hfind⟩).mono fun r s' hs' => ?_
    rw [hs']
    exact hsame

theorem plain_opened (wf : t.WellFormed) (hplain : t.Plain []) (c : Config) :
    (opened c t).Plain [] ∧ (opened c t).current = t.current := by
  have hcleaned : (cleaned c t).Plain [] ∧ (cleaned c t).current = t.current :=
    ⟨plain_cleaned wf hplain c, current_cleaned wf c⟩
  have hmade : Ends (Disk.makeDirectories c.distro) (cleaned c t) fun r u => (u.Plain [] ∧ u.current = t.current) ∧ _ :=
    Disk.ends_makeDirectories (fun u => u.Plain [] ∧ u.current = t.current) ?_ hcleaned
  · exact hmade.1
  · intro up _ _ u v hu hmade
    obtain ⟨front, l, n, -, rfl⟩ := makeDirectory_eq_ok hmade
    refine ⟨fun m target hm hne hlink => ?_, hu.2⟩
    rw [entry?_put u _ (by simp)] at hlink
    split at hlink
    · exact absurd hlink (by simp)
    · exact hu.1 m target hm hne hlink

/-- Without links, outputs lie below the place of the output or above it. -/
theorem avoids_of_plain (wf : t.WellFormed) (hplain : t.Plain []) (hplace : t.resolve c.distro = .ok place)
    (hapart : Apart source place) (hfile : (t.contents (source ++ file)).isSome = true) :
    (opened c t).Avoids c.distro (outputNames file) source := by
  obtain ⟨hopened, hcurrent⟩ := plain_opened wf hplain c
  intro pre hpre l hl hbelow
  rw [reach, landing_eq_locate fun _ _ _ target => hopened.not_link _ target, hcurrent, locate_append,
    ← hplain.resolve_eq wf hplace] at hl
  obtain ⟨more, hmore⟩ : ∃ more, locate place pre <+: place ++ more := by
    obtain ⟨bytes, hbytes⟩ := Option.isSome_iff_exists.mp hfile
    have hproper := wf.names (Option.ne_none_iff_exists'.mpr ⟨_, contents_eq_some.mp hbytes⟩)
    rcases List.eq_nil_or_concat' file with rfl | ⟨names, n, rfl⟩
    · rw [List.prefix_nil.mp hpre]
      exact ⟨[], by simp [locate]⟩
    · obtain ⟨last, hout⟩ := exists_outputNames (fun (m : Name) (hm : m ∈ names) => hproper m (by simp [hm]))
        (hproper n (by simp))
      exact hout.locate_prefix hpre place
  rw [Option.some.inj hl] at hmore
  exact (List.prefix_or_prefix_of_prefix (hbelow.trans hmore) (List.prefix_append _ _)).elim hapart.1 hapart.2

/-- Without links, cleaned output and output that is not above the source lie outside of it. -/
theorem Separate.of_plain (wf : t.WellFormed) (hplain : t.Plain []) (hsource : t.find c.source = .ok (source, e))
    (hchecked : Ends (checkDisjoint c) s fun r _ => r = .ok ()) (hs : s.tree = t)
    (habove : c.clean = true ∨ ∀ place, t.resolve c.distro = .ok place → ¬ place <+: source) : Separate c t source := by
  subst hs
  obtain ⟨to_, hto, hinside, hdeletes⟩ := exists_place (.inr hplain) wf hsource hchecked
  have hapart : Apart source to_ := ⟨hinside, habove.elim hdeletes fun h => h to_ hto⟩
  obtain ⟨hopened, hcurrent⟩ := plain_opened wf hplain c
  refine ⟨⟨.inr hplain, .inr hplain⟩, fun _ l target hlink => ?_, ⟨to_, hinside, ?_⟩, fun l e' hl => ?_,
    fun file hfile => ?_⟩
  · exact absurd (lookup_eq_ok_iff.mp hlink).2.entry?_eq (hplain.not_link l target)
  · rcases cleaned_cases wf c with heq | ⟨l, target, -, hlink, -⟩ | ⟨l, -, hdir, -⟩
    · rw [heq]
      exact .inl hto
    · exact absurd (lookup_eq_ok_iff.mp hlink).2.entry?_eq (hplain.not_link l target)
    · obtain rfl := Traceable.eq_of_resolve (.inr hplain) wf (find_of_lookup_link hdir) hto
      exact .inr ⟨hdir, fun l target _ _ => hplain.not_link l target⟩
  · have hlocation := hopened.location_eq (follows_names_of_find hl)
    rw [hcurrent, ← hplain.location_eq (follows_names_of_find hsource)] at hlocation
    exact hlocation
  · exact avoids_of_plain wf hplain hto hapart hfile

/-- Without links, a clean build leaves its source as it was, and so does one whose output is not above its source. -/
theorem part_run_of_plain (wf : t.WellFormed) (hplain : t.Plain []) (hsource : t.find c.source = .ok (source, e))
    (habove : c.clean = true ∨ ∀ place, t.resolve c.distro = .ok place → ¬ place <+: source) :
    (run c t).tree.part source = t.part source := by
  have hbuild : Ends (build c) ⟨t, .empty, []⟩ fun _ s => s.tree.part source = t.part source :=
    ends_build_part wf hsource fun hchecked => .of_plain wf hplain hsource hchecked rfl habove
  exact hbuild

/-- A build leaves its source as it was, whether it succeeds or not: what it writes lies outside of the source, or
it stops before it writes. -/
theorem source_unchanged {e : Entry} (wf : t.WellFormed) (hsource : t.find c.source = .ok (source, e))
    (hseparate : (Ends (checkDisjoint c) ⟨t, .empty, []⟩ fun r _ => r = .ok ()) → Separate c t source)
    (hl : source <+: l) : (run c t).tree.entry? l = t.entry? l := by
  have hpart : Ends (build c) ⟨t, .empty, []⟩ fun _ s => s.tree.part source = t.part source :=
    ends_build_part wf hsource hseparate
  exact entry?_of_part hpart hl

/-- The output lies above the source and holds a link to a directory beside it. -/
def linked : FileTree where
  entries :=
    [(["src".toList], .directory), (["src".toList, "lib".toList], .directory),
      (["src".toList, "lib".toList, "x".toList], .file "x".toUTF8), (["other".toList], .directory),
      (["lib".toList], .link (.ofString "other"))]
  current := []

def besideSource : Config := ⟨.ofString "src", .ofString ".", .var, false⟩

theorem source_unchanged_of_linked :
    (run besideSource linked).tree.entry? ["src".toList, "lib".toList, "x".toList] =
      linked.entry? ["src".toList, "lib".toList, "x".toList] := by
  have hfind : linked.find besideSource.source = .ok (["src".toList], .directory) := by cbv
  have hplace : (cleaned besideSource linked).resolve besideSource.distro = .ok [] := by cbv
  have hopened : (opened besideSource linked).find besideSource.source = .ok (["src".toList], .directory) := by cbv
  refine source_unchanged (.of_entries (by decide) (by decide) (by decide)) hfind
    (fun _ => ⟨⟨.inl (by cbv), .inl (by cbv)⟩, ?_, ?_, ?_, ?_⟩) (by decide)
  · exact fun hclean => absurd hclean (by decide)
  · exact ⟨[], by decide, .inl hplace⟩
  · intro l e hl
    exact (Prod.mk.inj (Except.ok.inj (hl.symm.trans hopened))).1
  · intro file hfile
    obtain ⟨bytes, hbytes⟩ := Option.isSome_iff_exists.mp hfile
    have hmem := mem_entries_of_entry?_eq (by simp) (contents_eq_some.mp hbytes)
    obtain ⟨rfl, -⟩ : file = ["lib".toList, "x".toList] ∧ bytes = "x".toUTF8 := by simpa [linked] using hmem
    exact .of_avoids (by cbv)

/-- The names in the source repeat, so output beside it comes to lie in it. -/
def repeated : FileTree where
  entries :=
    [(["src".toList], .directory), (["src".toList, "src".toList], .directory),
      (["src".toList, "src".toList, "a".toList], .file "x".toUTF8)]
  current := []

/-- A link in the output leads to the source. -/
def linkedBack : FileTree where
  entries :=
    [(["src".toList], .directory), (["src".toList, "l".toList], .directory),
      (["src".toList, "l".toList, "a".toList], .file "x".toUTF8), (["out".toList], .directory),
      (["out".toList, "l".toList], .link (.ofString "../src"))]
  current := []

/-- Output that is not cleaned may lie above the source or hold links to it. -/
theorem source_changed :
    (repeated.WellFormed ∧ repeated.find (.ofString "src") = .ok (["src".toList], .directory) ∧
      repeated.entry? ["src".toList, "a".toList] = none ∧
        (run ⟨.ofString "src", .ofString ".", .var, false⟩ repeated).tree.entry? ["src".toList, "a".toList] =
          some (.file "x".toUTF8)) ∧
      linkedBack.WellFormed ∧ linkedBack.find (.ofString "src") = .ok (["src".toList], .directory) ∧
        linkedBack.entry? ["src".toList, "a".toList] = none ∧
          (run ⟨.ofString "src", .ofString "out", .var, false⟩ linkedBack).tree.entry? ["src".toList, "a".toList] =
            some (.file "x".toUTF8) := by
  refine ⟨⟨.of_entries (by decide) (by decide) (by decide), ?_, ?_, ?_⟩,
    .of_entries (by decide) (by decide) (by decide), ?_, ?_, ?_⟩ <;> cbv

end Florin.Build
