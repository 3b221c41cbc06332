import Florin.Proofs.Build.Source
import Florin.Proofs.FileTree.Listing

/-! # What a walk writes

If each output has a place outside of the source where it is written, whatever was written before, a walk goes through
the files below the source in the order of their names, and each file that it is through with has left its product at
the place of its output and its share in the report.
-/
namespace Florin

namespace Build
open FileTree Florin.Path

variable {c : Config} {t u v : FileTree} {path : Path} {source l : Location} {area : Location → Prop}
  {dest : List Name → Location} {s : State} {file names : List Name} {n : Name} {files written : List (List Name)}
  {text : String} {bytes : ByteArray} {found : Location → Option ByteArray} {e : Entry}

theorem exists_outputNames_of_contents (wf : v.WellFormed) (hdir : v.entry? source = some .directory)
    (hfile : (v.contents (source ++ file)).isSome = true) :
    ∃ front last, OutputNames (outputNames file) front last := by
  obtain ⟨bytes, hbytes⟩ := Option.isSome_iff_exists.mp hfile
  have hentry := contents_eq_some.mp hbytes
  rcases List.eq_nil_or_concat' file with rfl | ⟨names, n, rfl⟩
  · rw [List.append_nil, hdir] at hentry
    exact absurd hentry (by simp)
  · have hproper := wf.names (Option.ne_none_iff_exists'.mpr ⟨_, hentry⟩)
    exact ⟨names, exists_outputNames (fun m hm => hproper m (by simp [hm])) (hproper n (by simp))⟩

/-- A path inside the source, at the names below its place. -/
structure Inside (v : FileTree) (source : Location) (path : Path) (names : List Name) : Prop where
  fixed : Fixed v source path (source ++ names)
  proper : ∀ n ∈ names, Proper n

theorem Inside.of_find (h : v.find path = .ok (source, e)) : Inside v source path [] := by
  refine ⟨?_, by simp⟩
  rw [List.append_nil]
  exact .of_find h source

theorem Inside.join (h : Inside v source path names) (hn : Proper n)
    (hlink : ∀ target, v.entry? (source ++ names ++ [n]) ≠ some (.link target)) :
    Inside v source (path.join ⟨n⟩) (names ++ [n]) := by
  refine ⟨?_, fun m hm => ?_⟩
  · rw [← List.append_assoc]
    exact h.fixed.join (by simp) hn hlink
  · rw [List.mem_append, List.mem_singleton] at hm
    rcases hm with hm | rfl
    · exact h.proper m hm
    · exact hn

/-- The expansion of a source file, if it holds a text. -/
def expansion? (c : Config) (t : FileTree) (source : Location) (file : List Name) : Option String :=
  ((t.contents (source ++ file)).bind String.fromUTF8?).map (expandText c.keyword)

/-- What a source file becomes. -/
def product? (c : Config) (t : FileTree) (source : Location) (file : List Name) : Option ByteArray :=
  if isExpanded file then (expansion? c t source file).map String.toUTF8 else t.contents (source ++ file)

/-- The sigils that are left in the product of a source file. -/
def leftoversOf (c : Config) (t : FileTree) (source : Location) (file : List Name) : List Leftover :=
  if isExpanded file then
    match expansion? c t source file with
    | some out => (leftoverSites out.toList).map fun site => ⟨outputPath c file, site⟩
    | none => []
  else []

/-- The report of a walk through files. -/
def reportOn (c : Config) (t : FileTree) (source : Location) (files : List (List Name)) : Report where
  transformed := (files.filter isExpanded).map (outputPath c)
  copied := (files.filter fun file => !isExpanded file).map (outputPath c)
  leftovers := files.flatMap (leftoversOf c t source)

/-- What is at a location after a walk through files that are written at certain places: the product of the last one
whose place it is, or what was there at first. -/
def heldAt (c : Config) (t : FileTree) (source : Location) (dest : List Name → Location) (files : List (List Name))
    (l : Location) : Option ByteArray :=
  (files.reverse.find? fun file => dest file = l).elim (t.contents l) (product? c t source)

theorem heldAt_concat : heldAt c t source dest (files ++ [file]) =
    Function.update (heldAt c t source dest files) (dest file) (product? c t source file) := by
  funext l
  rw [heldAt, List.reverse_append, List.reverse_singleton, List.singleton_append, List.find?_cons]
  by_cases h : dest file = l
  · subst h
    simp
  · simp [h, Function.update_of_ne (Ne.symm h), heldAt]

/-- The last file whose place it is has its product there. -/
theorem heldAt_of_last {front rest : List (List Name)} (hrest : ∀ file' ∈ rest, dest file' ≠ dest file) :
    heldAt c t source dest (front ++ file :: rest) (dest file) = product? c t source file := by
  have hnone : (rest.reverse.find? fun file' => dest file' = dest file) = none := by
    rw [List.find?_eq_none]
    intro file' hfile'
    simpa using hrest file' (List.mem_reverse.mp hfile')
  rw [heldAt, List.reverse_append, List.reverse_cons, List.append_assoc, List.find?_append, hnone, Option.none_or,
    List.singleton_append, List.find?_cons_of_pos (by simp), Option.elim_some]

section Part

variable (h : u.part source = v.part source)

include h

theorem expansion?_of_part : expansion? c u source = expansion? c v source := by
  funext file
  rw [expansion?, expansion?, contents_of_part h (List.prefix_append _ _)]

theorem product?_of_part : product? c u source = product? c v source := by
  funext file
  rw [product?, product?, expansion?_of_part h, contents_of_part h (List.prefix_append _ _)]

theorem reportOn_of_part : reportOn c u source files = reportOn c v source files := by
  have hleftovers : leftoversOf c u source = leftoversOf c v source := by
    funext file
    rw [leftoversOf, leftoversOf, expansion?_of_part h]
  rw [reportOn, reportOn, hleftovers]

theorem lists_of_part (hlists : u.Lists source files) : v.Lists source files where
  mem names := by
    rw [hlists.mem, contents_of_part h (List.prefix_append _ _)]
  ordered := hlists.ordered

end Part

/-- When a walk starts, a path leads to the source. However the tree grows outside of the source, a directory made on
the way of an output lies outside of it too, and so does the output, at one place, where it is found then. All of this
happens in some area. -/
structure Layout (c : Config) (v : FileTree) (source : Location) (area : Location → Prop)
    (dest : List Name → Location) : Prop where
  wellFormed : v.WellFormed
  starts : v.find c.source = .ok (source, .directory)
  makes : ∀ file, (v.contents (source ++ file)).isSome = true → ∀ u, v.Spares u source → ∀ up l n front,
    up.IsAbove (outputPath c file) → u.Makes up l n front → area (l ++ [n]) ∧ ¬ source <+: l ++ [n]
  writes : ∀ file, (v.contents (source ++ file)).isSome = true → ∀ u, v.Spares u source → ∀ bytes w,
    u.write (outputPath c file) bytes = .ok w → area (dest file) ∧ ¬ source <+: dest file ∧
      w.find (outputPath c file) = .ok (dest file, .file bytes) ∧
        ∃ l n, l ++ [n] = dest file ∧ u.Fits l n (.file bytes) ∧ w = u.put (l ++ [n]) (.file bytes)

/-- The tree while output is written: the source is as it was, the outputs that are written are found at their places,
the files are those that were found, and nothing has changed outside of the area. -/
structure Holds (c : Config) (v : FileTree) (source : Location) (area : Location → Prop)
    (dest : List Name → Location) (written : List (List Name)) (found : Location → Option ByteArray)
    (u : FileTree) : Prop where
  spares : v.Spares u source
  leads : ∀ file ∈ written, ∃ bytes, u.find (outputPath c file) = .ok (dest file, .file bytes)
  contents : u.contents = found
  outside : ∀ l, ¬ area l → u.entry? l = v.entry? l

namespace Holds

theorem put {found' : Location → Option ByteArray} (h : Holds c v source area dest written found u)
    (hfits : u.Fits l n e) (hl : area (l ++ [n])) (hout : ¬ source <+: l ++ [n])
    (hcontents : (u.put (l ++ [n]) e).contents = found') :
    Holds c v source area dest written found' (u.put (l ++ [n]) e) where
  spares := h.spares.put hfits hout
  leads file hfile := by
    obtain ⟨bytes, hfind⟩ := h.leads file hfile
    exact hfits.keeps.find_file hfind
  contents := hcontents
  outside m hm := by
    rw [entry?_put u e (by simp), if_neg]
    · exact h.outside m hm
    · rintro rfl
      exact hm hl

theorem of_mem {more : List (List Name)} (h : Holds c v source area dest written found u)
    (hmore : ∀ file ∈ more, file ∈ written ∨ ∃ bytes, u.find (outputPath c file) = .ok (dest file, .file bytes)) :
    Holds c v source area dest more found u where
  spares := h.spares
  leads file hfile := (hmore file hfile).elim (h.leads file) id
  contents := h.contents
  outside := h.outside

theorem takes (hlayout : Layout c v source area dest) (hfile : (v.contents (source ++ file)).isSome = true) :
    Takes (outputPath c file) (Holds c v source area dest written found) where
  directory u up l n front h habove hmakes := by
    obtain ⟨hl, hout⟩ := hlayout.makes file hfile u h.spares up l n front habove hmakes
    refine h.put hmakes.fits hl hout (funext fun m => ?_)
    rw [contents_put u _ (by simp), ← h.contents]
    split
    · rename_i heq
      rw [heq, FileTree.contents, hmakes.free]
      rfl
    · rfl

theorem yields_writeFile (h : Holds c v source area dest written found u) (hlayout : Layout c v source area dest)
    (hfile : (v.contents (source ++ file)).isSome = true) (bytes : ByteArray) :
    Yields (Disk.writeFile (outputPath c file) bytes) u fun _ w =>
      Holds c v source area dest (written ++ [file]) (Function.update found (dest file) (some bytes)) w := by
  rw [Yields, ends_writeFile]
  split
  · rename_i w hwrite
    obtain ⟨hl, hout, hfind, l, n, hdest, hfits, rfl⟩ := hlayout.writes file hfile u h.spares bytes w hwrite
    intro _ _
    have hput : Holds c v source area dest written (Function.update found (dest file) (some bytes))
        (u.put (l ++ [n]) (.file bytes)) := by
      rw [← hdest] at hl hout ⊢
      refine h.put hfits hl hout (funext fun m => ?_)
      rw [contents_put u _ (by simp), ← h.contents, Function.update_apply]
      rfl
    apply hput.of_mem
    intro file' hfile'
    rw [List.mem_append, List.mem_singleton] at hfile'
    rcases hfile' with hfile' | rfl
    · exact .inl hfile'
    · exact .inr ⟨bytes, hfind⟩
  · rintro _ ⟨⟩

theorem entry?_of_find (h : Holds c v source area dest written found u) (hpath : Inside v source path names)
    (hfind : u.find path = .ok (l, e)) : l = source ++ names ∧ v.entry? (source ++ names) = some e := by
  obtain rfl := hpath.fixed u h.spares l e (follows_names_of_find hfind)
  refine ⟨rfl, ?_⟩
  rw [← entry?_of_part h.spares.part (List.prefix_append _ _)]
  exact (find_eq_ok_iff.mp hfind).2.entry?_eq

theorem contents_of_bytes (h : Holds c v source area dest written found u) (hpath : Inside v source path file)
    (hbytes : u.bytes path = .ok bytes) : v.contents (source ++ file) = some bytes := by
  rw [FileTree.bytes] at hbytes
  split at hbytes
  · rename_i l bytes' hfind
    obtain rfl := Except.ok.inj hbytes
    exact contents_eq_some.mpr (h.entry?_of_find hpath hfind).2
  · exact absurd hbytes (by simp)
  · exact absurd hbytes (by simp)

theorem expansion?_of_text (h : Holds c v source area dest written found u) (hpath : Inside v source path file)
    (htext : u.text path = .ok text) : expansion? c v source file = some (expandText c.keyword text) := by
  rw [FileTree.text] at htext
  split at htext
  · rename_i bytes hbytes
    split at htext
    · rename_i text' hdecoded
      obtain rfl := Except.ok.inj htext
      rw [expansion?, h.contents_of_bytes hpath hbytes, Option.bind_some, hdecoded]
      rfl
    · exact absurd htext (by simp)
  · exact absurd htext (by simp)

/-- What is read again after the target was emptied is the same, since no output lies in the source. -/
theorem yields_copy (h : Holds c v source area dest written found u) (hlayout : Layout c v source area dest)
    (hpath : Inside v source path file) (hfile : (v.contents (source ++ file)).isSome = true) :
    Yields (Disk.copy path (outputPath c file)) u fun _ w => ∃ bytes, v.contents (source ++ file) = some bytes ∧
      Holds c v source area dest (written ++ [file]) (Function.update found (dest file) (some bytes)) w := by
  rw [Disk.copy, Yields, ends_bind, ends_get]
  dsimp only
  split
  · exact Yields.of_throw
  · refine (h.yields_writeFile hlayout hfile ByteArray.empty).bind fun _ u' hemptied => ?_
    rw [Yields, ends_bind, ends_get]
    dsimp only
    split
    · exact Yields.of_throw
    · rename_i bytes hbytes
      refine (hemptied.yields_writeFile hlayout hfile bytes).mono fun _ w hwritten => ?_
      rw [Function.update_idem] at hwritten
      refine ⟨bytes, hemptied.contents_of_bytes hpath hbytes, hwritten.of_mem fun file' hfile' => ?_⟩
      exact .inl (List.mem_append_left _ hfile')

theorem yields_ensureParent (h : Holds c v source area dest written found s.tree) (hlayout : Layout c v source area dest)
    (hfile : (v.contents (source ++ file)).isSome = true) :
    Yields (ensureParent (outputPath c file)) s fun _ s' =>
      Holds c v source area dest written found s'.tree ∧ s'.report = s.report :=
  ((takes hlayout hfile).ends_ensureParent h).mono fun _ _ hs _ _ => hs

end Holds

theorem yields_onDisk {α : Type} {wrap : FileError → BuildError} {d : Disk α} {P : α → State → Prop}
    (h : Yields d s.tree fun a t => P a { s with tree := t }) : Yields (onDisk wrap d) s P := by
  rw [Yields, ends_onDisk]
  refine Ends.mono h fun r u hr => ?_
  cases r with
  | ok a =>
    rintro _ ⟨⟩
    exact hr a rfl
  | error fault => rintro _ ⟨⟩

theorem yields_transformFile (h : Holds c v source area dest written found s.tree) (hlayout : Layout c v source area dest)
    (hpath : Inside v source path file) (hfile : (v.contents (source ++ file)).isSome = true) :
    Yields (transformFile c path (outputPath c file)) s fun _ s' => ∃ out, expansion? c v source file = some out ∧
      Holds c v source area dest (written ++ [file]) (Function.update found (dest file) (some out.toUTF8)) s'.tree ∧
        s'.report = { noted s.report (outputPath c file) (leftoverSites out.toList) with
          transformed := s.report.transformed ++ [outputPath c file] } := by
  rw [transformFile]
  refine Yields.bind (P := fun text s₁ => s₁ = s ∧ expansion? c v source file = some (expandText c.keyword text)) ?_ ?_
  · refine yields_onDisk ?_
    rw [Yields, ends_readText]
    exact fun text htext => ⟨rfl, h.expansion?_of_text hpath htext⟩
  rintro text _ ⟨rfl, hexpansion⟩
  refine (Yields.of_ends (ends_log (expansionEvents text))).bind fun _ s₁ hlogged => ?_
  refine (Yields.of_ends (ends_note path (outputPath c file) _)).bind fun _ s₂ hnoted => ?_
  have hheld : Holds c v source area dest written found s₂.tree := by
    rw [hnoted, hlogged]
    exact h
  refine (hheld.yields_ensureParent hlayout hfile).bind fun _ s₃ hensured => ?_
  refine Yields.bind (P := fun _ s₄ => Holds c v source area dest (written ++ [file])
    (Function.update found (dest file) (some (expandText c.keyword text).toUTF8)) s₄.tree ∧
      s₄.report = s₃.report) ?_ fun _ s₄ hwritten => ?_
  · exact yields_onDisk ((hensured.1.yields_writeFile hlayout hfile _).mono fun _ _ hw => ⟨hw, rfl⟩)
  rintro _ -
  refine ⟨_, hexpansion, hwritten.1, ?_⟩
  change { s₄.report with transformed := s₄.report.transformed ++ [outputPath c file] } = _
  rw [hwritten.2, hensured.2, hnoted, hlogged]
  rfl

theorem yields_copyFile (h : Holds c v source area dest written found s.tree) (hlayout : Layout c v source area dest)
    (hpath : Inside v source path file) (hfile : (v.contents (source ++ file)).isSome = true) :
    Yields (copyFile path (outputPath c file)) s fun _ s' => ∃ bytes, v.contents (source ++ file) = some bytes ∧
      Holds c v source area dest (written ++ [file]) (Function.update found (dest file) (some bytes)) s'.tree ∧
        s'.report = { s.report with copied := s.report.copied ++ [outputPath c file] } := by
  rw [copyFile]
  refine (h.yields_ensureParent hlayout hfile).bind fun _ s₁ hensured => ?_
  refine Yields.bind (P := fun _ s₂ => (∃ bytes, v.contents (source ++ file) = some bytes ∧
    Holds c v source area dest (written ++ [file]) (Function.update found (dest file) (some bytes)) s₂.tree) ∧
      s₂.report = s₁.report) ?_ fun _ s₂ hcopied => ?_
  · exact yields_onDisk ((hensured.1.yields_copy hlayout hpath hfile).mono fun _ _ hw => ⟨hw, rfl⟩)
  obtain ⟨⟨bytes, hbytes, hheld⟩, hreport⟩ := hcopied
  rintro _ -
  refine ⟨bytes, hbytes, hheld, ?_⟩
  change { s₂.report with copied := s₂.report.copied ++ [outputPath c file] } = _
  rw [hreport, hensured.2]

/-- What a walk has done when it is through with some files. -/
structure Filled (c : Config) (v : FileTree) (source : Location) (area : Location → Prop)
    (dest : List Name → Location) (files : List (List Name)) (s : State) : Prop where
  holds : Holds c v source area dest files (heldAt c v source dest files) s.tree
  report : s.report = reportOn c v source files
  produced : ∀ file ∈ files, (product? c v source file).isSome = true

theorem reportOn_concat (files : List (List Name)) (file : List Name) : reportOn c v source (files ++ [file]) =
    if isExpanded file then ⟨(reportOn c v source files).transformed ++ [outputPath c file],
      (reportOn c v source files).copied, (reportOn c v source files).leftovers ++ leftoversOf c v source file⟩
    else { reportOn c v source files with copied := (reportOn c v source files).copied ++ [outputPath c file] } := by
  by_cases h : isExpanded file
  · simp [reportOn, h]
  · simp [reportOn, h, leftoversOf]

theorem Filled.concat (h : Filled c v source area dest files s) {s' : State} {product : ByteArray}
    (hproduct : product? c v source file = some product)
    (hholds : Holds c v source area dest (files ++ [file])
      (Function.update (heldAt c v source dest files) (dest file) (some product)) s'.tree)
    (hreport : s'.report = reportOn c v source (files ++ [file])) :
    Filled c v source area dest (files ++ [file]) s' where
  holds := by
    rw [heldAt_concat, hproduct]
    exact hholds
  report := hreport
  produced m hm := by
    rw [List.mem_append, List.mem_singleton] at hm
    rcases hm with hm | rfl
    · exact h.produced m hm
    · rw [hproduct]
      rfl

theorem Filled.yields_buildFile (h : Filled c v source area dest files s) (hlayout : Layout c v source area dest)
    (hpath : Inside v source path (names ++ [n])) (hfile : (v.contents (source ++ (names ++ [n]))).isSome = true) :
    Yields (buildFile c path (names ++ [n])) s fun _ s' =>
      Filled c v source area dest (files ++ [names ++ [n]]) s' := by
  rw [buildFile]
  split
  · rename_i hexpanded
    refine (yields_transformFile h.holds hlayout hpath hfile).mono fun _ s' hs' => ?_
    obtain ⟨out, hexpansion, hholds, hreport⟩ := hs'
    have hmember : isExpanded (names ++ [n]) = true := hexpanded
    refine h.concat ?_ hholds ?_
    · rw [product?, if_pos hmember, hexpansion]
      rfl
    · rw [hreport, h.report, reportOn_concat, if_pos hmember, leftoversOf, if_pos hmember, hexpansion]
      rfl
  · rename_i hcopied
    refine (yields_copyFile h.holds hlayout hpath hfile).mono fun _ s' hs' => ?_
    obtain ⟨bytes, hbytes, hholds, hreport⟩ := hs'
    have hmember : ¬ isExpanded (names ++ [n]) = true := hcopied
    refine h.concat ?_ hholds ?_
    · rw [product?, if_neg hmember, hbytes]
    · rw [hreport, h.report, reportOn_concat, if_neg hmember]

theorem directory_of_cons (wf : t.WellFormed) {more : List Name} (h : t.entry? (l ++ n :: more) = some .directory) :
    t.entry? (l ++ [n]) = some .directory := by
  by_cases hmore : more = []
  · rw [hmore] at h
    exact h
  · rw [List.append_cons] at h
    exact wf.directory (Option.ne_none_iff_exists'.mpr ⟨_, h⟩) (List.prefix_append _ _) (by simpa using hmore)

/-- A walk is through with some members of a directory, none of which holds directories deeper than it goes. -/
structure Walked (c : Config) (v : FileTree) (source : Location) (area : Location → Prop)
    (dest : List Name → Location) (files : List (List Name)) (depth : Nat) (names : List Name)
    (done : List (Name × Entry)) (s : State) : Prop where
  filled : Filled c v source area dest
    (files ++ (done.flatMap (v.filesAt depth (source ++ names))).map (names ++ ·)) s
  shallow : ∀ x ∈ done, ∀ more, v.entry? (source ++ names ++ x.1 :: more) = some .directory → more.length < depth

theorem Walked.concat {depth : Nat} {done : List (Name × Entry)} {s' : State} {x : Name × Entry}
    (h : Walked c v source area dest files depth names done s)
    (hfilled : Filled c v source area dest
      (files ++ (done.flatMap (v.filesAt depth (source ++ names))).map (names ++ ·) ++
        (v.filesAt depth (source ++ names) x).map (names ++ ·)) s')
    (hshallow : ∀ more, v.entry? (source ++ names ++ x.1 :: more) = some .directory → more.length < depth) :
    Walked c v source area dest files depth names (done ++ [x]) s' where
  filled := by simpa using hfilled
  shallow y hy := by
    rw [List.mem_append, List.mem_singleton] at hy
    rcases hy with hy | rfl
    · exact h.shallow y hy
    · exact hshallow

/-- A walk that succeeds is through with all files below, and no directory lies deeper than it goes. -/
theorem Filled.yields_walk (h : Filled c v source area dest files s) (hlayout : Layout c v source area dest)
    (depth : Nat) (hpath : Inside v source path names) :
    Yields (walk c depth path names) s fun _ s' =>
      Filled c v source area dest (files ++ (v.filesBelow depth (source ++ names)).map (names ++ ·)) s' ∧
        ∀ more, v.entry? (source ++ names ++ more) = some .directory → more.length < depth := by
  induction depth generalizing path names files s with
  | zero => exact Yields.of_throw
  | succ depth ih =>
    rw [walk]
    -- The source is as it was, so the members are those of the tree that the walk started in.
    refine Yields.bind (P := fun inside s' => s' = s ∧ inside = v.children (source ++ names)) ?_ ?_
    · refine Ends.mono ends_list fun r s' hr inside hinside => ⟨hr.1, ?_⟩
      obtain ⟨l, hfind, rfl⟩ := hr.2 inside hinside
      obtain ⟨rfl, -⟩ := h.holds.entry?_of_find hpath hfind
      exact children_of_part h.holds.spares.part (List.prefix_append _ _)
    rintro _ _ ⟨rfl, rfl⟩
    refine (yields_forM (Walked c v source area dest files depth names) ?_
      ⟨by simpa using h, by simp⟩).mono fun _ s' hs' => ⟨?_, fun more hmore => ?_⟩
    · rintro done ⟨n, e⟩ rest hinside s' hdone
      have hmem : (n, e) ∈ v.children (source ++ names) := by simp [hinside]
      have hentry := hlayout.wellFormed.mem_children.mp hmem
      have hproper := hlayout.wellFormed.proper_of_mem_children hmem
      have hnone : e ≠ .directory → ∀ more, v.entry? (source ++ names ++ n :: more) ≠ some .directory :=
        fun hnot more hmore => hnot
          (Option.some.inj (hentry.symm.trans (directory_of_cons hlayout.wellFormed hmore)))
      have hplain : (∀ target, e ≠ .link target) → ∀ target, v.entry? (source ++ names ++ [n]) ≠ some (.link target) :=
        fun hnot target hlink => hnot target (Option.some.inj (hentry.symm.trans hlink))
      cases e with
      | file bytes =>
        have hfile : (v.contents (source ++ (names ++ [n]))).isSome = true := by
          rw [← List.append_assoc, contents_eq_some.mpr hentry]
          rfl
        refine (hdone.filled.yields_buildFile hlayout (hpath.join hproper (hplain (by simp))) hfile).mono
          fun _ s'' hs'' => hdone.concat hs'' fun more hmore => ?_
        exact absurd hmore (hnone (by simp) more)
      | directory =>
        refine (ih hdone.filled (hpath.join hproper (hplain (by simp)))).mono
          fun _ s'' hs'' => hdone.concat ?_ fun more hmore => ?_
        · have hfilled := hs''.1
          rw [← List.append_assoc source] at hfilled
          simpa [filesAt, Function.comp_def] using hfilled
        · exact hs''.2 more (by simpa using hmore)
      | link target =>
        refine Yields.of_pure (hdone.concat ?_ fun more hmore => absurd hmore (hnone (by simp) more))
        simpa [filesAt] using hdone.filled
    · rw [filesBelow_succ]
      exact hs'.filled
    · cases more with
      | nil => exact Nat.succ_pos depth
      | cons n more =>
        have hmem := hlayout.wellFormed.mem_children.mpr (directory_of_cons hlayout.wellFormed hmore)
        exact Nat.succ_lt_succ (hs'.shallow _ hmem more hmore)

theorem yields_walk_of_find {depth : Nat} {P : Unit → State → Prop}
    (h : ∀ l, s.tree.find path = .ok (l, .directory) → Yields (walk c depth path names) s P) :
    Yields (walk c depth path names) s P := by
  by_cases hfound : ∃ l, s.tree.find path = .ok (l, .directory)
  · obtain ⟨l, hfind⟩ := hfound
    exact h l hfind
  · cases depth with
    | zero => exact Yields.of_throw
    | succ depth =>
      rw [walk]
      refine Yields.bind (P := fun _ _ => False) ?_ fun _ _ => False.elim
      refine Ends.mono ends_list fun r s' hr inside hinside => hfound ?_
      obtain ⟨l, hfind, -⟩ := hr.2 inside hinside
      exact ⟨l, hfind⟩

end Build

end Florin
