import Florin.Proofs.Build.Source

/-! # Checks before a build

A build looks at where its two directories lie before it changes anything, and none of the steps behind these checks
fails as they do. An output directory that is missing is judged by where it comes to lie once it is made.
-/
namespace Florin

namespace BuildError

/-- The faults that a build finds before it changes anything. -/
def isGuard : BuildError → Bool
  | .noSource _ | .insideSource _ _ | .deletesSource _ _ | .resolve _ _ => true
  | _ => false

end BuildError

namespace FileTree

variable {t : FileTree} {p : Path} {l m : Location}

/-- Where a path leads to or, if it leads nowhere, where it leads to once its directories are made. -/
def RealPath (t : FileTree) (p : Path) (l : Location) : Prop :=
  (∃ e, t.find p = .ok (l, e)) ∨ (∀ found, t.find p ≠ .ok found) ∧
    Ends (Disk.makeDirectories p) t fun r u => r = .ok () ∧ u.Leads p l

/-- The names that are missing are put where making them puts them. -/
theorem RealPath.eq_of_resolve (h : t.RealPath p l) (htraceable : t.Traceable p) (wf : t.WellFormed)
    (hresolve : t.resolve p = .ok m) : m = l := by
  rcases h with ⟨e, hfind⟩ | ⟨-, hmade⟩
  · exact htraceable.eq_of_resolve wf hfind hresolve
  · have hcreated := (htraceable.creates wf hresolve).2 hmade.1
    exact hcreated.1.unique hmade.2

end FileTree

namespace Build
open FileTree Florin.Path

variable {c : Config} {t : FileTree} {source place real : Location} {s : State} {e : BuildError} {α : Type}

/-- The run finds no fault of the kind that is checked for before. -/
abbrev Unguarded (m : Action α) : Prop := Fails m fun e => e.isGuard = false

theorem unguarded_onDisk {wrap : FileError → BuildError} (hwrap : ∀ fault, (wrap fault).isGuard = false) (d : Disk α) :
    Unguarded (onDisk wrap d) := by
  intro s
  rw [ends_onDisk]
  rintro e he
  cases hr : (d.run.run s.tree).1 with
  | ok a => simp [hr, Except.mapError] at he
  | error fault =>
    rw [hr] at he
    obtain rfl := Except.error.inj he
    exact hwrap fault

theorem unguarded_log (event : Log.Event) : Unguarded (log event) := .of_modify _

theorem unguarded_ensureParent (p : Path) : Unguarded (ensureParent p) := by
  rw [ensureParent]
  split
  · exact unguarded_onDisk (fun _ => rfl) _
  · exact .of_pure _

theorem unguarded_transformFile (path output : Path) : Unguarded (transformFile c path output) := by
  rw [transformFile]
  refine (unguarded_onDisk (fun _ => rfl) _).bind fun text => ?_
  refine (Fails.forM fun event => unguarded_log event).bind fun _ => ?_
  refine (Fails.forM fun site => (unguarded_log _).bind fun _ => .of_modify _).bind fun _ => ?_
  refine (unguarded_ensureParent output).bind fun _ => ?_
  refine (unguarded_onDisk (fun _ => rfl) _).bind fun _ => ?_
  exact (unguarded_log _).bind fun _ => .of_modify _

theorem unguarded_copyFile (path output : Path) : Unguarded (copyFile path output) := by
  rw [copyFile]
  refine (unguarded_ensureParent output).bind fun _ => ?_
  refine (unguarded_onDisk (fun _ => rfl) _).bind fun _ => ?_
  exact (unguarded_log _).bind fun _ => .of_modify _

theorem unguarded_list (directory : Path) : Unguarded (list c directory) := by
  rw [list]
  refine Fails.of_get.bind fun s => ?_
  dsimp only
  split
  · exact .of_pure _
  · exact .of_throw rfl
  · exact .of_throw rfl

theorem unguarded_walk (depth : Nat) (path : Path) (names : List Name) : Unguarded (walk c depth path names) := by
  induction depth generalizing path names with
  | zero => exact .of_throw rfl
  | succ depth ih =>
    rw [walk]
    refine (unguarded_list path).bind fun inside => .forM fun x => ?_
    obtain ⟨n, e⟩ := x
    cases e with
    | directory => exact ih _ _
    | file bytes =>
      dsimp only
      rw [buildFile]
      split
      · exact unguarded_transformFile _ _
      · exact unguarded_copyFile _ _
    | link target => exact .of_pure _

theorem unguarded_clear : Unguarded (clear c t) := by
  rw [clear]
  split
  · exact unguarded_onDisk (fun _ => rfl) _
  · exact .of_pure _

theorem unguarded_fill : Unguarded (fill c) := by
  rw [fill]
  refine (unguarded_onDisk (fun _ => rfl) _).bind fun _ => ?_
  refine (unguarded_walk depthLimit c.source []).bind fun _ => ?_
  exact Fails.of_get.bind fun s => unguarded_log _

/-- The checks find the one fault or the other by where the two directories lie. -/
theorem ends_checkDisjoint_of_resolve (hsource : s.tree.resolve c.source = .ok source)
    (hplace : s.tree.resolve c.distro = .ok place) : Ends (checkDisjoint c) s fun r _ =>
      (r = .error (.insideSource c.distro c.source) ↔ source <+: place) ∧
        (r = .error (.deletesSource c.distro c.source) ↔ ¬ source <+: place ∧ c.clean = true ∧ place <+: source) := by
  rw [checkDisjoint, ends_bind, ends_get]
  dsimp only
  rw [hsource, hplace]
  dsimp only
  split
  · rename_i hinside
    rw [List.isPrefixOf_iff_prefix] at hinside
    rw [ends_bind, ends_throw]
    exact ⟨iff_of_true rfl hinside, iff_of_false (by simp) fun h => h.1 hinside⟩
  · rename_i hinside
    rw [List.isPrefixOf_iff_prefix] at hinside
    split
    · rename_i hdeletes
      rw [Bool.and_eq_true, List.isPrefixOf_iff_prefix] at hdeletes
      rw [ends_throw]
      exact ⟨iff_of_false (by simp) hinside, iff_of_true rfl ⟨hinside, hdeletes⟩⟩
    · rename_i hdeletes
      rw [Bool.and_eq_true, List.isPrefixOf_iff_prefix] at hdeletes
      rw [ends_pure]
      exact ⟨iff_of_false (by simp) hinside, iff_of_false (by simp) fun h => hdeletes h.2⟩

theorem unguarded_rest : Unguarded (clear c t >>= fun _ => fill c) :=
  unguarded_clear.bind fun _ => unguarded_fill

/-- A build fails in its checks if and only if they fail, and then it has changed nothing. -/
theorem ends_build_guard (hsource : s.tree.isDirectory c.source = true) (hguard : e.isGuard = true) :
    Ends (build c) s fun r _ => r = .error e ↔ Ends (checkDisjoint c) s fun r _ => r = .error e := by
  rw [build_eq, ends_bind, ends_get]
  dsimp only
  rw [if_neg (by simp [hsource]), ends_bind]
  refine (ends_checkDisjoint.and (R := fun r _ => r = ((checkDisjoint c).run.run s).1) rfl).mono fun r s' hr => ?_
  obtain ⟨⟨rfl, -⟩, hchecked⟩ := hr
  cases r with
  | error e' =>
    dsimp only [Ends]
    rw [← hchecked]
  | ok =>
    refine (unguarded_rest s').mono fun r _ hr => iff_of_false (fun he => ?_) ?_
    · exact absurd (hguard.symm.trans (hr e he)) (by decide)
    · dsimp only [Ends]
      rw [← hchecked]
      simp

theorem ends_build_unchanged :
    Ends (build c) s fun r s' => ∀ e, r = .error e → e.isGuard = true → s'.tree = s.tree := by
  rw [build_eq, ends_bind, ends_get]
  dsimp only
  split
  · exact fun _ _ _ => rfl
  · rw [ends_bind]
    refine ends_checkDisjoint.mono fun r s' hr => ?_
    obtain ⟨rfl, -⟩ := hr
    cases r with
    | error e => exact fun _ _ _ => rfl
    | ok =>
      refine (unguarded_rest s').mono fun r _ hr e he hguard => ?_
      exact absurd (hguard.symm.trans (hr e he)) (by decide)

/-- The checks before a build are exact if both directories can be looked up from the top: an output directory is where
it is resolved to, also one that is missing, and the build fails as it should by where the two directories lie. A build
that fails in its checks changes nothing. -/
theorem guards_exact (wf : t.WellFormed) :
    (∀ source real from_ to_, t.find c.source = .ok (source, .directory) → t.RealPath c.distro real →
      t.Traceable c.source → t.Traceable c.distro → t.resolve c.source = .ok from_ → t.resolve c.distro = .ok to_ →
        from_ = source ∧ to_ = real ∧
          ((run c t).outcome = .error (.insideSource c.distro c.source) ↔ source <+: real) ∧
          ((run c t).outcome = .error (.deletesSource c.distro c.source) ↔
            ¬ source <+: real ∧ c.clean = true ∧ real <+: source)) ∧
      ∀ e, (run c t).outcome = .error e → e.isGuard = true → (run c t).tree = t := by
  refine ⟨fun source real from_ to_ hfind hreal hsource hdistro hfrom hto => ?_, fun e he hguard => ?_⟩
  · obtain rfl := hsource.eq_of_resolve wf hfind hfrom
    obtain rfl := hreal.eq_of_resolve hdistro wf hto
    have hdir := isDirectory_iff.mpr ⟨from_, hfind⟩
    have hchecks := ends_checkDisjoint_of_resolve (s := ⟨t, .empty, []⟩) hfrom hto
    refine ⟨rfl, rfl, ?_, ?_⟩
    · exact outcome_eq_error.trans ((ends_build_guard hdir rfl).trans hchecks.1)
    · exact outcome_eq_error.trans ((ends_build_guard hdir rfl).trans hchecks.2)
  · exact ends_build_unchanged e (outcome_eq_error.mp he) hguard

/-- The output path goes through a link, leads up again, and ends in names that are missing. -/
def detour : FileTree where
  entries :=
    [(["src".toList], .directory), (["src".toList, "deep".toList], .directory),
      (["src".toList, "a".toList], .file "x".toUTF8), (["l".toList], .link (.ofString "src/deep"))]
  current := []

def throughLink : Config := ⟨.ofString "src", .ofString "l/../new/out", .var, true⟩

theorem guards_exact_of_detour :
    (run throughLink detour).outcome = .error (.insideSource throughLink.distro throughLink.source) ∧
      (run throughLink detour).tree = detour := by
  have wf : detour.WellFormed := .of_entries (by decide) (by decide) (by decide)
  have hfind : detour.find throughLink.source = .ok (["src".toList], .directory) := by cbv
  have hfrom : detour.resolve throughLink.source = .ok ["src".toList] := by cbv
  have hto : detour.resolve throughLink.distro = .ok ["src".toList, "new".toList, "out".toList] := by cbv
  have hreal : detour.RealPath throughLink.distro ["src".toList, "new".toList, "out".toList] := by
    refine .inr ⟨fun found hfound => ?_, ?_, .inr ?_⟩
    · have hnone : detour.find throughLink.distro = .error .notFound := by cbv
      exact absurd (hnone.symm.trans hfound) (by simp)
    · cbv
    · cbv
  obtain ⟨hexact, hunchanged⟩ := guards_exact (c := throughLink) wf
  have houtcome :=
    (hexact _ _ _ _ hfind hreal (.inl (by cbv)) (.inl (by cbv)) hfrom hto).2.2.1.mpr (by decide)
  exact ⟨houtcome, hunchanged _ houtcome rfl⟩

/-- A link to the source, in the directory where paths start. -/
def shortcut : FileTree where
  entries :=
    [(["work".toList], .directory), (["work".toList, "src".toList], .directory),
      (["work".toList, "src".toList, "a".toList], .file "x".toUTF8),
      (["work".toList, "ll".toList], .link (.ofString "src"))]
  current := ["work".toList]

/-- A path to the link with dots in front that say nothing. -/
def dotted : Nat → List Char
  | 0 => ['l', 'l']
  | k + 1 => '.' :: '/' :: dotted k

/-- The output path is longer than it may be behind the directory where paths start. -/
def behindDots : Config := ⟨.ofString "src", ⟨dotted 2044⟩, .var, false⟩

theorem splitOn_dotted (k : Nat) : Text.splitOn '/' (dotted k) = List.replicate k dot ++ [['l', 'l']] := by
  induction k with
  | zero => rfl
  | succ k ih =>
    rw [show dotted (k + 1) = dot ++ '/' :: dotted k from rfl, Text.splitOn_append_cons, ih]
    rfl

theorem byteLength_dotted (k : Nat) : Text.byteLength (dotted k) = 2 * k + 2 := by
  induction k with
  | zero => rfl
  | succ k ih =>
    rw [show dotted (k + 1) = ['.', '/'] ++ dotted k from rfl, Text.byteLength_append, ih,
      show Text.byteLength ['.', '/'] = 2 from rfl]
    omega

theorem zero_notMem_dotted (k : Nat) : '\x00' ∉ dotted k := by
  induction k with
  | zero => decide
  | succ k ih => simp [dotted, ih]

theorem telling_dotted (k : Nat) : telling (List.replicate k dot ++ [['l', 'l']]) = [['l', 'l']] := by
  rw [telling, List.filter_append, List.filter_eq_nil_iff.mpr]
  · decide
  · intro part hpart
    rw [List.eq_of_mem_replicate hpart]
    decide

theorem names_dotted (k : Nat) : names ⟨dotted k⟩ = List.replicate k dot ++ [['l', 'l']] := by
  rw [names, splitOn_dotted, List.filter_eq_self]
  intro part hpart
  rcases List.mem_append.mp hpart with hpart | hpart
  · rw [List.eq_of_mem_replicate hpart]
    decide
  · rw [List.mem_singleton.mp hpart]
    decide

theorem find_dotted {k : Nat} (hk : k ≤ 2046) :
    shortcut.find ⟨dotted k⟩ = .ok (["work".toList, "src".toList], .directory) := by
  have hfault : fault? ⟨dotted k⟩ = none := by
    have hempty : (dotted k).isEmpty = false := by cases k <;> rfl
    rw [fault?, byteLength_dotted, hempty, if_neg (by simp), if_neg (by simpa using zero_notMem_dotted k),
      if_neg (by omega)]
  have hrelative : isAbsolute ⟨dotted k⟩ = false := by cases k <;> rfl
  have hfollows : shortcut.Follows .entry linkLimit ["work".toList] (telling (List.replicate k dot ++ [['l', 'l']]))
      (.present ["work".toList, "src".toList] .directory) := by
    rw [telling_dotted]
    exact follows_of_follow (by cbv)
  refine find_of_follows_names hfault ?_
  rw [names_dotted, start, hrelative]
  exact hfollows.of_telling (.inl rfl)

theorem parentParts?_dotted (k : Nat) :
    parentParts? ("work".toList :: (List.replicate k dot ++ [['l', 'l']])) = some ["work".toList] := by
  have hlast : Text.dropWhileEnd isSilent (["work".toList] ++ List.replicate k dot ++ [['l', 'l']]) =
      ["work".toList] ++ List.replicate k dot ++ [['l', 'l']] := by
    rw [Text.dropWhileEnd, List.reverse_concat, List.dropWhile_cons_of_neg (by decide), ← List.reverse_concat,
      List.reverse_reverse]
  have hdots : Text.dropWhileEnd isSilent (["work".toList] ++ List.replicate k dot) = ["work".toList] := by
    rw [Text.dropWhileEnd, List.reverse_append, List.reverse_replicate, List.dropWhile_append_of_pos]
    · rfl
    · intro part hpart
      rw [List.eq_of_mem_replicate hpart]
      rfl
  rw [parentParts?, ← List.singleton_append, ← List.append_assoc, hlast, if_neg (by simp), List.dropLast_concat, hdots]

/-- From the top the path is too long, so its last name is put below the directory where it starts. -/
theorem resolve_dotted {k : Nat} (hk : 2044 ≤ k) :
    shortcut.resolve ⟨dotted k⟩ = .ok ["work".toList, "ll".toList] := by
  have hrelative : isAbsolute ⟨dotted k⟩ = false := by cases k <;> rfl
  have habsolute : shortcut.absolute ⟨dotted k⟩ = ⟨['/', 'w', 'o', 'r', 'k'] ++ '/' :: dotted k⟩ := by cases k <;> rfl
  have hparts : (shortcut.absolute ⟨dotted k⟩).parts = "work".toList :: (List.replicate k dot ++ [['l', 'l']]) := by
    rw [habsolute]
    change Text.splitOn '/' (['w', 'o', 'r', 'k'] ++ '/' :: dotted k) = _
    rw [Text.splitOn_append_cons, splitOn_dotted]
    rfl
  have hmissing : shortcut.find (shortcut.absolute ⟨dotted k⟩) = .error .nameTooLong := by
    have hfault : (shortcut.absolute ⟨dotted k⟩).fault? = some .nameTooLong := by
      have hbytes : Text.byteLength (['/', 'w', 'o', 'r', 'k'] ++ '/' :: dotted k) = 2 * k + 8 := by
        rw [List.append_cons, Text.byteLength_append, byteLength_dotted]
        exact Nat.add_comm _ _
      rw [habsolute, fault?, hbytes, if_neg (by simp), if_neg (by simpa using zero_notMem_dotted k), if_pos (by omega)]
    rw [find, lookup, hfault]
  have hname : (shortcut.absolute ⟨dotted k⟩).fileName? = some ['l', 'l'] := by
    refine fileName?_eq_some.mpr ⟨?_, by decide⟩
    rw [← filter_parts, hparts, List.filter_cons_of_pos (by decide), ← telling, telling_dotted]
    rfl
  have hfound : shortcut.find (ofParts ['/'] ["work".toList]) = .ok (["work".toList], .directory) := by cbv
  have hlead := (shortcut.absolute_eq_ofParts ⟨dotted k⟩).1
  rw [resolve, hrelative, if_neg (by decide), ancestors, settle, hmissing]
  dsimp only
  rw [hname, hlead, hparts, ancestorsOf, parentParts?_dotted]
  dsimp only
  rw [settle, hfound]
  rfl

/-- A path that is too long to be looked up from the top is taken for one whose last name is missing, so a build goes on
though its output directory is its source. -/
theorem guards_missed :
    shortcut.WellFormed ∧ shortcut.find behindDots.source = .ok (["work".toList, "src".toList], .directory) ∧
      shortcut.RealPath behindDots.distro ["work".toList, "src".toList] ∧
        shortcut.resolve behindDots.source = .ok ["work".toList, "src".toList] ∧
          shortcut.resolve behindDots.distro = .ok ["work".toList, "ll".toList] ∧
            (run behindDots shortcut).outcome ≠ .error (.insideSource behindDots.distro behindDots.source) := by
  have hfind : shortcut.find (.ofString "src") = .ok (["work".toList, "src".toList], .directory) := by cbv
  have hfrom : shortcut.resolve (.ofString "src") = .ok ["work".toList, "src".toList] := by cbv
  have hto : shortcut.resolve behindDots.distro = .ok ["work".toList, "ll".toList] :=
    resolve_dotted (Nat.le_refl _)
  refine ⟨.of_entries (by decide) (by decide) (by decide), hfind, .inl ⟨_, find_dotted (by decide)⟩, hfrom, hto, ?_⟩
  intro hinside
  have hchecks := ends_checkDisjoint_of_resolve (c := behindDots) (s := ⟨shortcut, .empty, []⟩) hfrom hto
  have hguard := ends_build_guard (c := behindDots) (s := ⟨shortcut, .empty, []⟩) (isDirectory_iff.mpr ⟨_, hfind⟩)
    (e := .insideSource behindDots.distro behindDots.source) rfl
  exact absurd (hchecks.1.mp (hguard.mp (outcome_eq_error.mp hinside))) (by decide)

end Build

end Florin
