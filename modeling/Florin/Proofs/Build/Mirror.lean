import Florin.Proofs.Build.Filling

/-! # Output that mirrors its source

A clean build in a tree without links, if it succeeds, leaves the products of the source files at their outputs and
reports just these. An output path that is empty is not there to be removed, and what the place it leads to held
stays.
-/
namespace Florin.Build
open FileTree Florin.Path

variable {c : Config} {t u v : FileTree} {place source : Location} {first : List Name → Option ByteArray}
  {files : List (List Name)} {report : Report}

theorem contents_of_grows {near : Location → Prop} (h : v.Grows u near) (l : Location) :
    u.contents l = v.contents l := by
  rw [FileTree.contents, FileTree.contents]
  rcases h.entry? l with hsame | ⟨-, hnone, hdir⟩
  · rw [hsame]
  · rw [hnone, hdir]
    rfl

theorem contents_of_cleared (h : t.Cleared u place) (hdir : t.entry? place = some .directory) (names : List Name) :
    u.contents (place ++ names) = none := by
  by_cases hnames : names = []
  · rw [hnames, List.append_nil, FileTree.contents]
    cases hplace : u.entry? place with
    | none => rfl
    | some e =>
      obtain rfl := Option.some.inj (hdir.symm.trans (h.remains.within _ _ hplace))
      rfl
  · rw [FileTree.contents, h.below _ (List.prefix_append _ _) (by simpa using hnames)]
    rfl

/-- What is at the names of an output after a walk through files: the product of the last one with this output, or
what was there at first. -/
def image (c : Config) (t : FileTree) (source : Location) (first : List Name → Option ByteArray)
    (files : List (List Name)) (names : List Name) : Option ByteArray :=
  match files.reverse.find? fun file => outputNames file = names with
  | some file => product? c t source file
  | none => first names

theorem heldAt_append (hpart : v.part source = t.part source)
    (hcontents : ∀ names, v.contents (place ++ names) = first names) (names : List Name) :
    heldAt c v source (fun file => place ++ outputNames file) files (place ++ names) =
      image c t source first files names := by
  simp only [heldAt, image, List.append_cancel_left_eq, hcontents, product?_of_part hpart]
  cases files.reverse.find? fun file => outputNames file = names <;> rfl

/-- In a tree without links, a directory is the source, and apart from it is the place of the output. -/
structure Setting (c : Config) (t : FileTree) (source place : Location) : Prop where
  wellFormed : t.WellFormed
  plain : t.Plain []
  starts : t.find c.source = .ok (source, .directory)
  apart : Apart source place

/-- The tree when the output directory is made: the source is as it was, the output holds what was found, and elsewhere
at most the directories above the output are new. -/
structure Opens (c : Config) (t : FileTree) (source place : Location) (found : List Name → Option ByteArray)
    (v : FileTree) : Prop where
  wellFormed : v.WellFormed
  leads : v.Leads c.distro place
  current : v.current = t.current
  plain : v.Plain []
  part : v.part source = t.part source
  contents : ∀ names, v.contents (place ++ names) = found names
  outside : ∀ l, ¬ place <+: l → v.entry? l = t.entry? l ∨
    l <+: place ∧ t.entry? l = none ∧ v.entry? l = some .directory

theorem Opens.of_grows {near : Location → Prop} (hsetting : Setting c t source place) (hremains : t.Remains v place)
    (hpart : u.part source = t.part source) (hgrows : v.Grows u near)
    (hnear : ∀ l, near l → ¬ place <+: l → l <+: place) (hleads : u.Leads c.distro place)
    (hcontents : ∀ names, v.contents (place ++ names) = first names) : Opens c t source place first u where
  wellFormed := hgrows.wellFormed
  leads := hleads
  current := hgrows.current.trans hremains.current
  plain l target _ _ hlink := hsetting.plain.not_link l target (hremains.within l _ (hgrows.link hlink))
  part := hpart
  contents names := (contents_of_grows hgrows _).trans (hcontents names)
  outside l hl := by
    rw [← hremains.outside l hl]
    exact (hgrows.entry? l).imp id fun ⟨hl', hnone, hdir⟩ => ⟨hnear l hl' hl, hnone, hdir⟩

theorem Opens.reach_eq (h : Opens c t source place first v) {names : List Name}
    (hplain : ∀ n ∈ names, isSilent n = false ∧ n ≠ dots) : v.reach c.distro names = some (place ++ names) :=
  reach_eq_append h.leads.reach_eq hplain fun _ _ _ target => h.plain.not_link _ target

/-- The source path leads to the source again if it leads anywhere, and outputs lie below the place of the output at
their names. -/
theorem Opens.layout (h : Opens c t source place first v) (hsetting : Setting c t source place) {l : Location}
    (hfind : v.find c.source = .ok (l, .directory)) :
    Layout c v source (place <+: ·) fun file => place ++ outputNames file := by
  have hout : ∀ names, ¬ source <+: place ++ names := fun names hbelow =>
    (List.prefix_or_prefix_of_prefix hbelow (List.prefix_append _ _)).elim hsetting.apart.1 hsetting.apart.2
  have hlocation := h.plain.location_eq (follows_names_of_find hfind)
  rw [h.current, ← hsetting.plain.location_eq (follows_names_of_find hsetting.starts)] at hlocation
  obtain rfl : l = source := hlocation
  have hdir := (find_eq_ok_iff.mp hfind).2.entry?_eq
  refine ⟨h.wellFormed, hfind, ?_, ?_⟩
  · intro file hfile u hu up l n front habove hmakes
    obtain ⟨front', last, hfront⟩ := exists_outputNames_of_contents h.wellFormed hdir hfile
    obtain ⟨mid, rest, -, hmid, hreach⟩ := hu.exists_reach h.leads hfront habove hmakes
    have hplain : ∀ n ∈ mid, isSilent n = false ∧ n ≠ dots := fun n hn =>
      ⟨(hfront.proper n (hmid.subset hn)).not_silent, (hfront.proper n (hmid.subset hn)).ne_dots⟩
    obtain rfl := Option.some.inj (hreach.symm.trans (h.reach_eq hplain))
    rw [List.append_assoc]
    exact ⟨List.prefix_append _ _, hout _⟩
  · intro file hfile u hu bytes w hwrite
    obtain ⟨front, last, hfront⟩ := exists_outputNames_of_contents h.wellFormed hdir hfile
    obtain ⟨l, n, hfits, hreach, rfl, hfound⟩ := hu.of_write hfront hwrite
    have hplain := hfront.plain_of_find (hfits.wellFormed hu.wellFormed) hfound
    have hdest := Option.some.inj (hreach.symm.trans (h.reach_eq hplain))
    rw [← hdest]
    refine ⟨?_, ?_, hfound, l, n, rfl, hfits, rfl⟩
    · rw [hdest]
      exact List.prefix_append _ _
    · rw [hdest]
      exact hout _

/-- What is left at the place of the output when it is cleaned. -/
def remaining (c : Config) (t : FileTree) (place : Location) (names : List Name) : Option ByteArray :=
  if c.distro.text = [] then t.contents (place ++ names) else none

theorem eq_ok_of_mapError {ε ε' α : Type} {f : ε → ε'} {r : Except ε α} {a : α} (h : r.mapError f = .ok a) :
    r = .ok a := by
  cases r with
  | ok b => exact congrArg Except.ok (Except.ok.inj h)
  | error fault => exact absurd h (by simp [Except.mapError])

/-- Cleaning succeeds only if the directory that the output path leads to is cleared. -/
theorem exists_cleared (hsetting : Setting c t source place) (hresolve : t.resolve c.distro = .ok place)
    (hpresent : (c.clean && t.isPresent c.distro) = true) {s : State} (hs : s.tree = t)
    (hcleared : Ends (clear c t) s fun r _ => r = .ok ()) :
    t.lookup .link c.distro = .ok (.present place .directory) ∧ t.Cleared (cleaned c t) place := by
  subst hs
  rw [clear, if_pos hpresent, ends_onDisk] at hcleared
  rw [cleaned, if_pos hpresent]
  rcases ends_removeAll hsetting.wellFormed c.distro with ⟨-, hfailed⟩ | ⟨l, target, hlink, -⟩ | ⟨l, hdir, hl⟩
  · exact absurd (eq_ok_of_mapError hcleared) hfailed
  · exact absurd (lookup_eq_ok_iff.mp hlink).2.entry?_eq (hsetting.plain.not_link l target)
  · obtain rfl := Traceable.eq_of_resolve (.inr hsetting.plain) hsetting.wellFormed (find_of_lookup_link hdir) hresolve
    exact ⟨hdir, hl⟩

theorem yields_create (hsetting : Setting c t source place) (hclean : c.clean = true)
    (hresolve : t.resolve c.distro = .ok place) {s : State} (hs : s.tree = t)
    (hcleared : Ends (clear c t) s fun r _ => r = .ok ()) :
    Yields (Disk.makeDirectories c.distro) (cleaned c t) fun _ u =>
      Opens c t source place (remaining c t place) u := by
  have hne : place ≠ [] := fun hnil => hsetting.apart.2 (hnil ▸ List.nil_prefix)
  by_cases hpresent : (c.clean && t.isPresent c.distro) = true
  · obtain ⟨hlookup, hl⟩ := exists_cleared hsetting hresolve hpresent hs hcleared
    obtain ⟨hfault, hfollows⟩ := find_eq_ok_iff.mp (find_of_lookup_link hlookup)
    have htext : c.distro.text ≠ [] := fun htext => by simp [fault?, htext] at hfault
    refine Ends.mono (ends_create_again hl hlookup (fun l target _ _ => hsetting.plain.not_link l target) hne)
      fun r u hu _ hok => ?_
    have hpart : u.part source = t.part source := by
      refine (hu.1.part source fun l hl hbelow => ?_).trans (hl.part source hsetting.apart)
      exact (List.prefix_or_prefix_of_prefix hl hbelow).elim hsetting.apart.2 hsetting.apart.1
    refine .of_grows hsetting hl.remains hpart hu.1 (fun l hl hnot => absurd hl hnot) (hu.2 hok) fun names => ?_
    rw [remaining, if_neg htext]
    exact contents_of_cleared hl hfollows.entry?_eq names
  · -- Output that is not there has nothing below its place, unless its path is empty.
    rw [cleaned, if_neg hpresent]
    have hnot : ∀ found, t.find c.distro ≠ .ok found := by
      intro found hfound
      rw [hclean, isPresent, hfound] at hpresent
      exact hpresent rfl
    refine Ends.mono (Traceable.creates (.inr hsetting.plain) hsetting.wellFormed hresolve) fun r u hu _ hok => ?_
    obtain ⟨hgrows, hleads⟩ := hu
    have hpart : u.part source = t.part source :=
      hgrows.part source fun l hl hbelow => hsetting.apart.1 (hbelow.trans hl)
    refine .of_grows hsetting (.refl t place) hpart hgrows (fun l hl _ => hl) (hleads hok).1 fun names => ?_
    rw [remaining]
    split
    · rfl
    · rename_i htext
      rw [FileTree.contents, (hleads hok).2 htext hnot _ (List.prefix_append _ _)]
      rfl

/-- What a build leaves behind that mirrors its source. -/
structure Mirrors (c : Config) (t : FileTree) (source place : Location) (files : List (List Name)) (report : Report)
    (u : FileTree) : Prop where
  leads : u.Leads c.distro place
  report : report = reportOn c t source files
  produced : ∀ file ∈ files, (product? c t source file).isSome = true
  contents : ∀ names, u.contents (place ++ names) = image c t source (remaining c t place) files names
  outside : ∀ l, ¬ place <+: l → u.entry? l = t.entry? l ∨
    l <+: place ∧ t.entry? l = none ∧ u.entry? l = some .directory

/-- Where the output path is not empty, the files below the output are those that the report lists. -/
theorem Mirrors.isSome_contents_iff (h : Mirrors c t source place files report u) (htext : c.distro.text ≠ [])
    (names : List Name) : (u.contents (place ++ names)).isSome = true ↔ ∃ file ∈ files, outputNames file = names := by
  rw [h.contents, image]
  cases hlast : files.reverse.find? fun file => outputNames file = names with
  | some file =>
    have hmem := List.mem_reverse.mp (List.mem_of_find?_eq_some hlast)
    have hnames := List.find?_some hlast
    exact iff_of_true (h.produced file hmem) ⟨file, hmem, by simpa using hnames⟩
  | none =>
    rw [List.find?_eq_none] at hlast
    refine iff_of_false (by simp [remaining, htext]) ?_
    rintro ⟨file, hfile, hnames⟩
    exact hlast file (List.mem_reverse.mpr hfile) (by simpa using hnames)

theorem yields_build (wf : t.WellFormed) (hplain : t.Plain []) (hclean : c.clean = true) :
    Ends (build c) ⟨t, .empty, []⟩ fun r s => r = .ok () → ∃ source place files,
      t.find c.source = .ok (source, .directory) ∧ t.resolve c.distro = .ok place ∧ t.Lists source files ∧
        Mirrors c t source place files s.report s.tree := by
  refine ends_build (Q := fun r u report => r = .ok () → ∃ source place files,
    t.find c.source = .ok (source, .directory) ∧ t.resolve c.distro = .ok place ∧ t.Lists source files ∧
      Mirrors c t source place files report u) (fun _ hok => absurd hok (by simp)) fun hsource hchecked => ?_
  refine ⟨fun _ hok => absurd hok (by simp), fun hcleared => ?_⟩
  obtain ⟨source, hfind⟩ := isDirectory_iff.mp hsource
  obtain ⟨place, hto, hinside, hdeletes⟩ := exists_place (.inr hplain) wf hfind hchecked
  have hsetting : Setting c t source place := ⟨wf, hplain, hfind, hinside, hdeletes hclean⟩
  refine Ends.mono (yields_create hsetting hclean hto rfl hcleared) fun r v hv => ?_
  refine ⟨fun _ hok => absurd hok (by simp), fun hok => ?_⟩
  have hopens := hv () hok
  -- The walk starts with nothing done in the tree that was opened.
  have hwalk : Yields (walk c depthLimit c.source []) ⟨v, .empty, []⟩ fun _ s =>
      ∃ files, t.Lists source files ∧ Mirrors c t source place files s.report s.tree := by
    refine yields_walk_of_find fun l hl => ?_
    have hlayout := hopens.layout hsetting hl
    have hfilled : Filled c v source (place <+: ·) (fun file => place ++ outputNames file) [] ⟨v, .empty, []⟩ :=
      ⟨⟨.refl hopens.wellFormed source, by simp, rfl, fun _ _ => rfl⟩, rfl, by simp⟩
    refine (hfilled.yields_walk hlayout depthLimit (.of_find hlayout.starts)).mono fun _ s hs => ?_
    obtain ⟨hwalked, hdepth⟩ := hs
    simp only [List.append_nil, List.nil_append, List.map_id'] at hwalked hdepth
    have hdir := (find_eq_ok_iff.mp hlayout.starts).2.entry?_eq
    refine ⟨_, lists_of_part hopens.part (lists_filesBelow hopens.wellFormed hdir hdepth), ?_⟩
    exact
      { leads := hopens.leads.keeps hwalked.holds.spares.keeps
        report := hwalked.report.trans (reportOn_of_part hopens.part)
        produced := fun file hfile => by
          rw [← product?_of_part hopens.part]
          exact hwalked.produced file hfile
        contents := fun names => by
          rw [hwalked.holds.contents]
          exact heldAt_append hopens.part hopens.contents names
        outside := fun l hl => by
          rw [hwalked.holds.outside l hl]
          exact hopens.outside l hl }
  refine Ends.mono hwalk fun r s hs hok => ?_
  obtain ⟨files, hlists, hmirrors⟩ := hs () hok
  exact ⟨source, place, files, hfind, hto, hlists, hmirrors⟩

/-- A clean build that succeeds mirrors its source. -/
theorem mirrors_source (wf : t.WellFormed) (hplain : t.Plain []) (hclean : c.clean = true)
    (hok : (run c t).outcome = .ok report) : ∃ source place files, t.find c.source = .ok (source, .directory) ∧
      t.resolve c.distro = .ok place ∧ t.Lists source files ∧ Mirrors c t source place files report (run c t).tree := by
  obtain ⟨hdone, rfl⟩ := ends_of_outcome hok
  exact yields_build wf hplain hclean hdone

/-- Two files of the source have one output, and the output directory holds a file from before. -/
def stale : FileTree where
  entries :=
    [(["source".toList], .directory), (["source".toList, "a.fjs".toList], .file "ƒ f(a) b".toUTF8),
      (["source".toList, "a.js".toList], .file "x".toUTF8), (["source".toList, "d".toList], .directory),
      (["source".toList, "d".toList, "b".toList], .file "y".toUTF8), (["distro".toList], .directory),
      (["distro".toList, "old".toList], .file "z".toUTF8)]
  current := []

set_option maxRecDepth 20000 in
theorem mirrors_source_of_stale : ∃ source place files, stale.find Config.default.source = .ok (source, .directory) ∧
    stale.resolve Config.default.distro = .ok place ∧ stale.Lists source files ∧
      Mirrors .default stale source place files
        ⟨[.ofString "distro/a.js"], [.ofString "distro/a.js", .ofString "distro/d/b"], []⟩
        (run .default stale).tree := by
  have wf : stale.WellFormed := .of_entries (by decide) (by decide) (by decide)
  have hplain : stale.Plain [] := .of_entries (by simp [stale])
  have hok : (run .default stale).outcome =
      .ok ⟨[.ofString "distro/a.js"], [.ofString "distro/a.js", .ofString "distro/d/b"], []⟩ := by cbv
  exact mirrors_source wf hplain rfl hok

/-- The source lies beside the directory where paths start, which holds a file. -/
def beside : FileTree where
  entries :=
    [(["s".toList], .directory), (["s".toList, "a".toList], .file "x".toUTF8), (["w".toList], .directory),
      (["w".toList, "old".toList], .file "z".toUTF8)]
  current := ["w".toList]

/-- An empty output path leads to the directory where paths start, which a clean build leaves as it was. -/
theorem kept_of_empty :
    beside.WellFormed ∧ beside.Plain [] ∧ beside.resolve (.ofString "") = .ok ["w".toList] ∧
      (run ⟨.ofString "../s", .ofString "", .var, true⟩ beside).outcome = .ok ⟨[], [.ofString "a"], []⟩ ∧
        (run ⟨.ofString "../s", .ofString "", .var, true⟩ beside).tree.contents ["w".toList, "old".toList] =
          some "z".toUTF8 := by
  refine ⟨.of_entries (by decide) (by decide) (by decide), .of_entries (by simp [beside]), ?_, ?_, ?_⟩ <;> cbv

end Florin.Build
