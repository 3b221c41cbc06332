import Florin.Proofs.Build.Filling

/-! # Outputs that are kept

When a build succeeds and nothing that it writes leads into the source, the report lists the output of each source file
once, and two of these paths are the same if and only if the files are twins. A source file has its product at its output
unless a later one is its twin, or their outputs come to lead to one place through a link in the output directory.
-/
namespace Florin.Build
open FileTree Florin.Path

variable {c : Config} {t u v : FileTree} {place source l : Location} {file file' : List Name}
  {files : List (List Name)} {report : Report} {e : Entry}

/-- Outputs that do not lead into the source are written where they come to lead at first. -/
theorem layout_of_outlet (wf : v.WellFormed) (hfind : v.find c.source = .ok (source, .directory))
    (houtlet : ∀ file, (v.contents (source ++ file)).isSome = true →
      v.Outlet c.distro (outputNames file) source place) :
    Layout c v source (fun _ => True) fun file => (v.reach c.distro (outputNames file)).getD [] where
  wellFormed := wf
  starts := hfind
  makes file hfile u hu up l n front habove hmakes := by
    obtain ⟨_, _, hout⟩ := exists_outputNames_of_contents wf (find_eq_ok_iff.mp hfind).2.entry?_eq hfile
    exact ⟨trivial, hu.of_makes (houtlet file hfile) hout habove hmakes⟩
  writes file hfile u hu bytes w hwrite := by
    obtain ⟨_, _, hout⟩ := exists_outputNames_of_contents wf (find_eq_ok_iff.mp hfind).2.entry?_eq hfile
    obtain ⟨l, n, hfits, hreach, hput, hfound⟩ := hu.of_write hout hwrite
    rw [hreach, Option.getD_some]
    exact ⟨trivial, (houtlet file hfile).avoids _ (List.prefix_refl _) _ hreach, hfound, l, n, rfl, hfits, hput⟩

/-- Where the output of a file comes to lead, as the tree is when the walk starts. -/
def outputPlace (c : Config) (t : FileTree) (file : List Name) : Option Location :=
  (opened c t).reach c.distro (outputNames file)

/-- The output of a file is a link in the output directory or goes through one. -/
def Linked (c : Config) (t : FileTree) (file : List Name) : Prop :=
  ∃ place front target, (opened c t).reach c.distro [] = some place ∧ front <+: outputNames file ∧ front ≠ [] ∧
    entry? (opened c t) (place ++ front) = some (.link target)

/-- The outputs of two files come to lead to one place, through a link in the output directory. -/
def Meets (c : Config) (t : FileTree) (file file' : List Name) : Prop :=
  file ≠ file' ∧ (∃ l, outputPlace c t file = some l ∧ outputPlace c t file' = some l) ∧
    (Linked c t file ∨ Linked c t file')

/-- What a build leaves behind for the files of its source, of which later ones are walked later. -/
structure KeepsOutputs (c : Config) (t : FileTree) (source : Location) (files : List (List Name)) (report : Report)
    (u : FileTree) : Prop where
  listed : (report.transformed ++ report.copied).Perm (files.map (outputPath c))
  same : ∀ file ∈ files, ∀ file' ∈ files, outputPath c file = outputPath c file' ↔ file = file' ∨ Twins file file'
  distinct : (report.transformed ++ report.copied).Nodup ↔ ∀ file ∈ files, ∀ file' ∈ files, ¬ Twins file file'
  kept : ∀ file ∈ files, (∀ file' ∈ files, Earlier file file' → ¬ Twins file file' ∧ ¬ Meets c t file file') →
    ∃ product, product? c t source file = some product ∧ u.bytes (outputPath c file) = .ok product

/-- The output of a source file is there: no name of it leads up, and it is found where it came to lead when the walk
started. -/
structure Written (c : Config) (t : FileTree) (file : List Name) (u : FileTree) : Prop where
  names : ∀ n ∈ file, n ≠ dots
  spelled : ∀ n ∈ outputNames file, Spelled n
  plain : ∀ n ∈ outputNames file, isSilent n = false ∧ n ≠ dots
  found : ∃ l bytes, outputPlace c t file = some l ∧ u.find (outputPath c file) = .ok (l, .file bytes)

namespace Written

theorem dots_notMem (h : Written c t file u) : dots ∉ outputNames file := fun hmem => (h.plain dots hmem).2 rfl

theorem outputPath_eq_iff (h : Written c t file u) (h' : Written c t file' u) :
    outputPath c file = outputPath c file' ↔ file = file' ∨ Twins file file' := by
  rw [← outputNames_eq_iff h.names h'.names h.dots_notMem h'.dots_notMem]
  constructor
  · intro heq
    have hnames := congrArg Path.names heq
    rw [outputPath, outputPath, names_join _ h.spelled, names_join _ h'.spelled] at hnames
    exact List.append_cancel_left hnames
  · intro heq
    rw [outputPath, outputPath, heq]

theorem reach_of_not_linked (h : Written c t file u) (hplace : (opened c t).reach c.distro [] = some place)
    (hlinked : ¬ Linked c t file) : outputPlace c t file = some (place ++ outputNames file) := by
  apply reach_eq_append hplace h.plain
  intro front hfront hne target hlink
  exact hlinked ⟨place, front, target, hplace, hfront, hne, hlink⟩

/-- Outputs that come to lead to one place are those of twins, or a link leads one of them there. -/
theorem twins_or_meets (h : Written c t file u) (h' : Written c t file' u)
    (hplace : (opened c t).reach c.distro [] = some place) (hne : file ≠ file')
    (hl : outputPlace c t file = some l) (hl' : outputPlace c t file' = some l) :
    Twins file file' ∨ Meets c t file file' := by
  by_cases hlinked : Linked c t file ∨ Linked c t file'
  · exact .inr ⟨hne, ⟨l, hl, hl'⟩, hlinked⟩
  · left
    rw [not_or] at hlinked
    have hsame := hl.trans hl'.symm
    rw [h.reach_of_not_linked hplace hlinked.1, h'.reach_of_not_linked hplace hlinked.2] at hsame
    have hnames := List.append_cancel_left (Option.some.inj hsame)
    exact (eq_or_twins h.names h'.names hnames).resolve_left hne

end Written

theorem outputs_perm (c : Config) (t : FileTree) (source : Location) (files : List (List Name)) :
    ((reportOn c t source files).transformed ++ (reportOn c t source files).copied).Perm
      (files.map (outputPath c)) := by
  rw [reportOn, ← List.map_append]
  exact (List.filter_append_perm isExpanded files).map _

theorem nodup_map_outputPath (hfiles : files.Nodup) (hwritten : ∀ file ∈ files, Written c t file u) :
    (files.map (outputPath c)).Nodup ↔ ∀ file ∈ files, ∀ file' ∈ files, ¬ Twins file file' := by
  rw [List.nodup_map_iff_inj_on hfiles]
  constructor
  · intro hinjective file hfile file' hfile' htwins
    have hpath := ((hwritten file hfile).outputPath_eq_iff (hwritten file' hfile')).mpr (.inr htwins)
    exact htwins.ne (hinjective file hfile file' hfile' hpath)
  · intro htwins file hfile file' hfile' hpath
    have hcases := ((hwritten file hfile).outputPath_eq_iff (hwritten file' hfile')).mp hpath
    exact hcases.resolve_right (htwins file hfile file' hfile')

section Walked

variable {s : State} {area : Location → Prop} {front rest : List (List Name)} {bytes : ByteArray}

/-- When a walk is through, each of its files has been written. -/
theorem Filled.written (wf : (opened c t).WellFormed) (hdir : entry? (opened c t) source = some .directory)
    (h : Filled c (opened c t) source area (fun file => (outputPlace c t file).getD []) files s)
    (hsome : ((opened c t).contents (source ++ file)).isSome = true) (hfile : file ∈ files) :
    Written c t file s.tree := by
  obtain ⟨front, last, hout⟩ := exists_outputNames_of_contents wf hdir hsome
  obtain ⟨bytes, hfound⟩ := h.holds.leads file hfile
  obtain ⟨_, hbytes⟩ := Option.isSome_iff_exists.mp hsome
  have hproper := wf.names (Option.ne_none_iff_exists'.mpr ⟨_, contents_eq_some.mp hbytes⟩)
  have hreach : outputPlace c t file = some ((outputPlace c t file).getD []) :=
    h.holds.spares.reach_of_find hout hfound
  exact
    { names := fun n hn => (hproper n (List.mem_append_right _ hn)).ne_dots
      spelled := hout.all_spelled
      plain := hout.plain_of_find h.holds.spares.wellFormed hfound
      found := ⟨_, bytes, hreach, hfound⟩ }

/-- A file has its product where it is found if whatever is written later comes to lead elsewhere. -/
theorem Filled.product?_eq (h : Filled c (opened c t) source area (fun file => (outputPlace c t file).getD [])
      (front ++ file :: rest) s) (hl : outputPlace c t file = some l)
    (hfound : s.tree.find (outputPath c file) = .ok (l, .file bytes))
    (hrest : ∀ file' ∈ rest, (outputPlace c t file').getD [] ≠ l) :
    product? c (opened c t) source file = some bytes := by
  have hlast : heldAt c (opened c t) source (fun file => (outputPlace c t file).getD []) (front ++ file :: rest) l =
      product? c (opened c t) source file := by
    have hplace : l = (outputPlace c t file).getD [] := by rw [hl, Option.getD_some]
    rw [hplace] at hrest ⊢
    exact heldAt_of_last hrest
  rw [← hlast, ← h.holds.contents]
  exact contents_eq_some.mpr (find_eq_ok_iff.mp hfound).2.entry?_eq

end Walked

theorem yields_walk_outputs (hwf : (opened c t).WellFormed) (hpart : (opened c t).part source = t.part source)
    (hfind : (opened c t).find c.source = .ok (source, .directory)) (hleads : (opened c t).Leads c.distro place)
    (houtlet : ∀ file, ((opened c t).contents (source ++ file)).isSome = true →
      (opened c t).Outlet c.distro (outputNames file) source place) :
    Yields (walk c depthLimit c.source []) ⟨opened c t, .empty, []⟩ fun _ s =>
      ∃ files, t.Lists source files ∧ KeepsOutputs c t source files s.report s.tree := by
  have hlayout := layout_of_outlet hwf hfind houtlet
  have hdir := (find_eq_ok_iff.mp hfind).2.entry?_eq
  have hfilled : Filled c (opened c t) source (fun _ => True) (fun file => (outputPlace c t file).getD []) []
      ⟨opened c t, .empty, []⟩ := ⟨⟨.refl hwf source, by simp, rfl, fun _ _ => rfl⟩, rfl, by simp⟩
  refine (hfilled.yields_walk hlayout depthLimit (.of_find hfind)).mono fun _ s hs => ?_
  obtain ⟨hwalked, hdepth⟩ := hs
  simp only [List.append_nil, List.nil_append, List.map_id'] at hwalked hdepth
  have hlists := lists_filesBelow hwf hdir hdepth
  generalize (opened c t).filesBelow depthLimit source = files at hwalked hlists
  have hwritten : ∀ file ∈ files, Written c t file s.tree := fun file hfile =>
    hwalked.written hwf hdir ((hlists.mem file).mp hfile) hfile
  have hperm := hwalked.report ▸ outputs_perm c (opened c t) source files
  refine ⟨files, lists_of_part hpart hlists, ?_⟩
  constructor
  · exact hperm
  · intro file hfile file' hfile'
    exact (hwritten file hfile).outputPath_eq_iff (hwritten file' hfile')
  · rw [hperm.nodup_iff]
    apply nodup_map_outputPath _ hwritten
    exact hlists.ordered.imp fun hearlier heq => absurd (heq ▸ hearlier) (Std.Irrefl.irrefl _)
  · intro file hfile hlater
    obtain ⟨l, bytes, hl, hfound⟩ := (hwritten file hfile).found
    obtain ⟨front, rest, rfl⟩ := List.append_of_mem hfile
    have hearlier : ∀ file' ∈ rest, Earlier file file' :=
      (List.pairwise_cons.mp (List.pairwise_append.mp hlists.ordered).2.1).1
    refine ⟨bytes, ?_, by rw [FileTree.bytes, hfound]⟩
    rw [← product?_of_part hpart]
    apply hwalked.product?_eq hl hfound
    intro file' hfile' hsame
    have hmem : file' ∈ front ++ file :: rest := by simp [hfile']
    have hne : file ≠ file' := by
      rintro rfl
      exact Std.Irrefl.irrefl _ (hearlier file hfile')
    obtain ⟨l', _, hl', _⟩ := (hwritten file' hmem).found
    rw [hl', Option.getD_some] at hsame
    rcases (hwritten file hfile).twins_or_meets (hwritten file' hmem) hleads.reach_eq hne hl (hsame ▸ hl') with
      htwins | hmeets
    · exact (hlater file' hmem (hearlier file' hfile')).1 htwins
    · exact (hlater file' hmem (hearlier file' hfile')).2 hmeets

theorem ends_build_outputs (wf : t.WellFormed) (hfind : t.find c.source = .ok (source, .directory))
    (hseparate : (Ends (checkDisjoint c) ⟨t, .empty, []⟩ fun r _ => r = .ok ()) → Separate c t source) :
    Ends (build c) ⟨t, .empty, []⟩ fun r s => r = .ok () →
      ∃ files, t.Lists source files ∧ KeepsOutputs c t source files s.report s.tree := by
  refine ends_build (Q := fun r u report => r = .ok () → ∃ files, t.Lists source files ∧
    KeepsOutputs c t source files report u) (fun _ hok => absurd hok (by simp)) fun _ hchecked => ?_
  have hsep := hseparate hchecked
  refine ⟨fun _ hok => absurd hok (by simp), fun _ => ?_⟩
  refine (hsep.ends_opened wf hfind hchecked rfl).mono fun r v hv => ?_
  obtain ⟨rfl, hpart, houtlets⟩ := hv
  refine ⟨fun _ hok => absurd hok (by simp), fun hok => ?_⟩
  obtain ⟨hwf, place, hleads, houtlet⟩ := houtlets hok
  have hwalk : Yields (walk c depthLimit c.source []) ⟨opened c t, .empty, []⟩ fun _ s =>
      ∃ files, t.Lists source files ∧ KeepsOutputs c t source files s.report s.tree := by
    refine yields_walk_of_find fun l hl => ?_
    obtain rfl := hsep.walked l _ hl
    exact yields_walk_outputs hwf hpart hl hleads houtlet
  exact Ends.mono hwalk fun r s hs hok => hs () hok

/-- A build that succeeds keeps its outputs, whatever links there are, if what it writes does not lead into the
source. -/
theorem outputs_kept (wf : t.WellFormed) (hfind : t.find c.source = .ok (source, .directory))
    (hseparate : Separate c t source) (hok : (run c t).outcome = .ok report) :
    ∃ files, t.Lists source files ∧ KeepsOutputs c t source files report (run c t).tree := by
  obtain ⟨hdone, rfl⟩ := ends_of_outcome hok
  exact ends_build_outputs wf hfind (fun _ => hseparate) hdone

/-- A link in the output leads to a directory beside it. -/
def diverted : FileTree where
  entries :=
    [(["src".toList], .directory), (["src".toList, "a.fjs".toList], .file "y".toUTF8),
      (["src".toList, "lib".toList], .directory), (["src".toList, "lib".toList, "x".toList], .file "x".toUTF8),
      (["other".toList], .directory), (["out".toList], .directory),
      (["out".toList, "lib".toList], .link (.ofString "../other"))]
  current := []

def ontoLink : Config := ⟨.ofString "src", .ofString "out", .var, false⟩

theorem diverted_files {file : List Name} (hfile : (diverted.contents (["src".toList] ++ file)).isSome = true) :
    file = ["a.fjs".toList] ∨ file = ["lib".toList, "x".toList] := by
  obtain ⟨bytes, hbytes⟩ := Option.isSome_iff_exists.mp hfile
  have hmem := mem_entries_of_entry?_eq (by simp) (contents_eq_some.mp hbytes)
  have hcases : file = ["a.fjs".toList] ∧ bytes = "y".toUTF8 ∨
      file = ["lib".toList, "x".toList] ∧ bytes = "x".toUTF8 := by simpa [diverted] using hmem
  exact hcases.imp And.left And.left

theorem diverted_separate : Separate ontoLink diverted ["src".toList] := by
  have hplace : (cleaned ontoLink diverted).resolve ontoLink.distro = .ok ["out".toList] := by cbv
  have hopened : (opened ontoLink diverted).find ontoLink.source = .ok (["src".toList], .directory) := by cbv
  refine ⟨⟨.inl (by cbv), .inl (by cbv)⟩, fun hclean => absurd hclean (by decide),
    ⟨["out".toList], by decide, .inl hplace⟩, ?_, ?_⟩
  · intro l e hl
    exact (Prod.mk.inj (Except.ok.inj (hl.symm.trans hopened))).1
  · intro file hfile
    rcases diverted_files hfile with rfl | rfl <;> exact .of_avoids (by cbv)

theorem diverted_apart {file file' : List Name} (hfile : (diverted.contents (["src".toList] ++ file)).isSome = true)
    (hfile' : (diverted.contents (["src".toList] ++ file')).isSome = true) : ¬ Twins file file' := by
  have hlength : ¬ Twins ["a.fjs".toList] ["lib".toList, "x".toList] := by
    rintro ⟨front, stem, ext, ext', -, -, -, -, hfirst, hother⟩
    have hfirst := congrArg List.length hfirst
    have hother := congrArg List.length hother
    simp only [List.length_append, List.length_cons, List.length_nil] at hfirst hother
    omega
  intro htwins
  rcases diverted_files hfile with rfl | rfl <;> rcases diverted_files hfile' with rfl | rfl
  · exact htwins.ne rfl
  · exact hlength htwins
  · exact hlength htwins.symm
  · exact htwins.ne rfl

set_option maxRecDepth 20000 in
theorem outputs_kept_of_diverted :
    ([Path.ofString "out/a.js"] ++ [Path.ofString "out/lib/x"]).Nodup ∧
      ∃ product, product? ontoLink diverted ["src".toList] ["lib".toList, "x".toList] = some product ∧
        (run ontoLink diverted).tree.bytes (outputPath ontoLink ["lib".toList, "x".toList]) = .ok product := by
  have hfind : diverted.find ontoLink.source = .ok (["src".toList], .directory) := by cbv
  have hok : (run ontoLink diverted).outcome =
      .ok ⟨[.ofString "out/a.js"], [.ofString "out/lib/x"], []⟩ := by cbv
  have hfirst : outputPlace ontoLink diverted ["a.fjs".toList] = some ["out".toList, "a.js".toList] := by cbv
  have hother : outputPlace ontoLink diverted ["lib".toList, "x".toList] = some ["other".toList, "x".toList] := by cbv
  obtain ⟨files, hlists, hkept⟩ :=
    outputs_kept (.of_entries (by decide) (by decide) (by decide)) hfind diverted_separate hok
  have hsome (file : List Name) (hfile : file ∈ files) : (diverted.contents (["src".toList] ++ file)).isSome = true :=
    (hlists.mem file).mp hfile
  refine ⟨hkept.distinct.mpr fun file hfile file' hfile' => diverted_apart (hsome file hfile) (hsome file' hfile'), ?_⟩
  apply hkept.kept _ ((hlists.mem _).mpr (by decide))
  intro file' hfile' _
  refine ⟨diverted_apart (by decide) (hsome file' hfile'), ?_⟩
  rintro ⟨hne, ⟨l, hl, hl'⟩, -⟩
  rcases diverted_files (hsome file' hfile') with rfl | rfl
  · rw [hfirst] at hl'
    rw [hother, ← hl'] at hl
    exact absurd hl (by decide)
  · exact hne rfl

/-- Without links, only twins share an output, and what is kept is cleaned output or output that is not above its
source. -/
theorem outputs_kept_of_plain (wf : t.WellFormed) (hplain : t.Plain [])
    (hfind : t.find c.source = .ok (source, .directory))
    (habove : c.clean = true ∨ ∀ place, t.resolve c.distro = .ok place → ¬ place <+: source)
    (hok : (run c t).outcome = .ok report) : ∃ files, t.Lists source files ∧
      ((report.transformed ++ report.copied).Nodup ↔ ∀ file ∈ files, ∀ file' ∈ files, ¬ Twins file file') ∧
        ∀ file ∈ files, (∀ file' ∈ files, Earlier file file' → ¬ Twins file file') →
          ∃ product, product? c t source file = some product ∧
            (run c t).tree.bytes (outputPath c file) = .ok product := by
  obtain ⟨hdone, rfl⟩ := ends_of_outcome hok
  have hbuild := ends_build_outputs wf hfind fun hchecked => .of_plain wf hplain hfind hchecked rfl habove
  obtain ⟨files, hlists, hkept⟩ := hbuild hdone
  have hlinked (file : List Name) : ¬ Linked c t file := by
    rintro ⟨place, front, target, -, -, -, hlink⟩
    exact (plain_opened wf hplain c).1.not_link _ target hlink
  refine ⟨files, hlists, hkept.distinct, fun file hfile htwins => ?_⟩
  apply hkept.kept file hfile
  intro file' hfile' hearlier
  refine ⟨htwins file' hfile' hearlier, ?_⟩
  rintro ⟨-, -, hfirst | hother⟩
  · exact hlinked file hfirst
  · exact hlinked file' hother

/-- Two files of the source have one output. -/
def doubled : FileTree where
  entries :=
    [(["src".toList], .directory), (["src".toList, "a.fjs".toList], .file "y".toUTF8),
      (["src".toList, "a.js".toList], .file "x".toUTF8)]
  current := []

/-- One output is a link to another one. -/
def shared : FileTree where
  entries :=
    [(["src".toList], .directory), (["src".toList, "a".toList], .file "x".toUTF8),
      (["src".toList, "b".toList], .file "y".toUTF8), (["out".toList], .directory),
      (["out".toList, "b".toList], .link (.ofString "a"))]
  current := []

/-- The names in the source repeat, so output beside it comes to lie in it, where the walk finds it later. -/
def grown : FileTree where
  entries :=
    [(["src".toList], .directory), (["src".toList, "src".toList], .directory),
      (["src".toList, "src".toList, "z".toList], .directory),
      (["src".toList, "src".toList, "z".toList, "a.fjs".toList], .file "x".toUTF8),
      (["src".toList, "z".toList], .directory), (["src".toList, "z".toList, "a.fjs".toList], .file "y".toUTF8)]
  current := []

set_option maxRecDepth 20000 in
/-- Outputs of twins, outputs that a link leads to one place, and outputs that the walk takes for sources are
overwritten. -/
theorem outputs_lost :
    (doubled.WellFormed ∧ (run ⟨.ofString "src", .ofString "out", .var, true⟩ doubled).outcome =
          .ok ⟨[.ofString "out/a.js"], [.ofString "out/a.js"], []⟩ ∧
        product? ⟨.ofString "src", .ofString "out", .var, true⟩ doubled ["src".toList] ["a.fjs".toList] =
          some "y".toUTF8 ∧
        (run ⟨.ofString "src", .ofString "out", .var, true⟩ doubled).tree.bytes (.ofString "out/a.js") =
          .ok "x".toUTF8) ∧
      (shared.WellFormed ∧ (run ⟨.ofString "src", .ofString "out", .var, false⟩ shared).outcome =
          .ok ⟨[], [.ofString "out/a", .ofString "out/b"], []⟩ ∧
        product? ⟨.ofString "src", .ofString "out", .var, false⟩ shared ["src".toList] ["a".toList] =
          some "x".toUTF8 ∧
        (run ⟨.ofString "src", .ofString "out", .var, false⟩ shared).tree.bytes (.ofString "out/a") =
          .ok "y".toUTF8) ∧
      grown.WellFormed ∧ (run ⟨.ofString "src", .ofString ".", .var, false⟩ grown).outcome =
          .ok ⟨[.ofString "./src/z/a.js", .ofString "./z/a.js"], [.ofString "./z/a.js"], []⟩ ∧
        product? ⟨.ofString "src", .ofString ".", .var, false⟩ grown ["src".toList] ["z".toList, "a.fjs".toList] =
          some "y".toUTF8 ∧
        (run ⟨.ofString "src", .ofString ".", .var, false⟩ grown).tree.bytes (.ofString "./z/a.js") =
          .ok "x".toUTF8 := by
  refine ⟨⟨.of_entries (by decide) (by decide) (by decide), ?_, ?_, ?_⟩,
    ⟨.of_entries (by decide) (by decide) (by decide), ?_, ?_, ?_⟩,
    .of_entries (by decide) (by decide) (by decide), ?_, ?_, ?_⟩ <;> cbv

end Florin.Build
