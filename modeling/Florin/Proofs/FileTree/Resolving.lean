import Florin.Proofs.FileTree.Making

/-! # Where a path will lead

A path that is there is resolved to the place it leads to, and one that is not there yet to the place where its
missing names come to lie. This holds if the path can be looked up from the top. Of one that is too long the last names
are put below the place that the others lead to, whatever is there.
-/
namespace Florin

namespace Path

/-- What the components of a path start with. -/
def leadComponents (p : Path) : List Component :=
  if p.isAbsolute then [.root] else if p.lead.isEmpty then [] else [.current]

def component (part : Name) : Component := if part = dots then .parent else .name part

theorem components_eq (p : Path) : p.components = p.leadComponents ++ p.spoken.map component := by
  rw [components, filter_parts]
  rfl

/-- The file name is the last one that says something, if it does not lead up. -/
theorem fileName?_eq_some {p : Path} {n : Name} : p.fileName? = some n ↔ p.spoken.getLast? = some n ∧ n ≠ dots := by
  rw [fileName?, components_eq]
  rcases List.eq_nil_or_concat' p.spoken with hnil | ⟨front, part, hspoken⟩
  · rw [hnil, List.map_nil, List.append_nil, leadComponents]
    cases p.isAbsolute <;> cases p.lead.isEmpty <;> simp
  · rw [hspoken, List.map_append, ← List.append_assoc, List.map_singleton, List.getLast?_concat, List.getLast?_concat,
      component]
    by_cases hdots : part = dots
    · rw [if_pos hdots, hdots]
      refine iff_of_false (by simp) fun h => ?_
      exact h.2 (Option.some.inj h.1).symm
    · rw [if_neg hdots]
      refine (and_iff_left_of_imp fun h => ?_).symm
      exact Option.some.inj h ▸ hdots

theorem telling_names_ofParts {parts : List Name} (hparts : ∀ part ∈ parts, '/' ∉ part) :
    telling (ofParts ['/'] parts).names = telling parts := by
  rw [names_ofParts hparts, telling, telling, List.filter_filter]
  refine List.filter_congr fun part _ => ?_
  cases part <;> simp [isSilent]

end Path

namespace FileTree
open Florin.Path

variable {t u : FileTree} {p : Path} {l here : Location} {n : Name} {e : Entry} {parts steps front rest ns : List Name}
  {k : Nat}

theorem spoken_eq (p : Path) : p.spoken = telling p.names := by
  refine List.filter_congr fun n hn => ?_
  simp [isSilent, ne_nil_of_mem_names hn]

theorem not_silent_of_mem_spoken (h : n ∈ p.spoken) : isSilent n = false := by
  rw [spoken_eq, telling] at h
  simpa using (List.mem_filter.mp h).2

theorem Follows.spoken (h : t.Follows .entry k here p.names (.present l e)) :
    t.Follows .entry k here p.spoken (.present l e) := by
  rw [spoken_eq]
  exact h.filter_silent

/-- Silent names may be put in, at the end of what leads to a directory also. -/
theorem Follows.of_filter_silent (h : t.Follows .entry k here (front ++ telling steps) (.present l e))
    (hlast : e = .directory ∨ ∀ n ∈ steps.getLast?, isSilent n = false) :
    t.Follows .entry k here (front ++ steps) (.present l e) := by
  induction steps generalizing front with
  | nil => exact h
  | cons n rest ih =>
    have hlast' : e = .directory ∨ ∀ m ∈ rest.getLast?, isSilent m = false := by
      refine hlast.imp_right fun hlast m hm => hlast m ?_
      rw [List.getLast?_cons]
      simp [Option.mem_def.mp hm]
    by_cases hn : isSilent n = true
    · rw [telling, List.filter_cons_of_neg (by simp [hn])] at h
      have hrest := ih h hlast'
      obtain ⟨m, e', hfront⟩ := hrest.exists_front (.inl rfl) (by simp)
      obtain ⟨j, -, hfollow⟩ := hfront.follow_append
      have hlater := (hfollow .entry rest (.inl rfl)).symm.trans (follow_of_follows hrest)
      have hdir : t.entry? m = some .directory := by
        by_cases hne : rest = []
        · subst hne
          rcases hlast with rfl | hlast
          · rw [follow_nil hfront.entry?_eq] at hlater
            obtain ⟨rfl, rfl⟩ := Place.present.inj (Except.ok.inj hlater)
            exact hfront.entry?_eq
          · exact absurd (hlast n (by simp)) (by simp [hn])
        · exact (follows_of_follow hlater).directory_of_ne_nil hne
      refine follows_of_follow ((hfollow .entry (n :: rest) (.inl rfl)).trans ?_)
      rw [follow_stay hdir hn]
      exact hlater
    · rw [telling, List.filter_cons_of_pos (by simp [hn]), List.append_cons] at h
      have hrest := ih h hlast'
      rwa [← List.append_cons] at hrest

theorem Follows.of_telling (h : t.Follows .entry k here (telling steps) (.present l e))
    (hlast : e = .directory ∨ ∀ n ∈ steps.getLast?, isSilent n = false) :
    t.Follows .entry k here steps (.present l e) := by
  rw [← List.nil_append steps]
  exact .of_filter_silent h hlast

theorem follow_append_location (wf : t.WellFormed) (hdir : t.entry? (here ++ ns) = some .directory) :
    t.follow .entry k here (ns ++ rest) = t.follow .entry k (here ++ ns) rest := by
  induction ns generalizing here with
  | nil => rw [List.nil_append, List.append_nil]
  | cons n ns ih =>
    have hsome := Option.ne_none_iff_exists'.mpr ⟨_, hdir⟩
    have hhere := wf.directory hsome (List.prefix_append _ _) (by simp)
    have hword := (wf.names hsome n (by simp)).toWord
    rw [List.append_cons] at hdir hsome ⊢
    have hnext : t.entry? (here ++ [n]) = some .directory := by
      by_cases hns : ns = []
      · rw [hns, List.append_nil] at hdir
        exact hdir
      · exact wf.directory hsome (List.prefix_append _ _) (by simpa using hns)
    rw [List.cons_append, follow_word hhere hword (by simp), hnext]
    exact ih hdir

theorem follows_location (wf : t.WellFormed) (hdir : t.entry? (here ++ ns) = some .directory) :
    t.Follows .entry k here ns (.present (here ++ ns) .directory) := by
  refine follows_of_follow ?_
  calc t.follow .entry k here ns
    _ = t.follow .entry k here (ns ++ []) := by rw [List.append_nil]
    _ = t.follow .entry k (here ++ ns) [] := follow_append_location wf hdir
    _ = .ok (.present (here ++ ns) .directory) := follow_nil hdir

theorem isAbsolute_absolute (t : FileTree) (p : Path) : (t.absolute p).isAbsolute = true := by
  rw [absolute]
  split
  · assumption
  · rename_i hrelative
    exact isAbsolute_join_of_relative _ (by simpa using hrelative)

theorem absolute_eq_ofParts (t : FileTree) (p : Path) :
    (t.absolute p).lead = ['/'] ∧ t.absolute p = ofParts ['/'] (t.absolute p).parts := by
  have hlead : (t.absolute p).lead = ['/'] := by
    rw [lead, if_pos (t.isAbsolute_absolute p)]
  have htext := (t.absolute p).text_eq
  rw [hlead] at htext
  exact ⟨hlead, congrArg Path.mk htext⟩

theorem names_ofLocation (hnames : ∀ n ∈ l, Spelled n) : (ofLocation l).names = l := by
  change names ⟨[] ++ '/' :: Text.joinWith '/' l⟩ = l
  rw [names_append_slash, names_empty, List.nil_append]
  exact names_ofNames hnames

/-- Where a path starts there is a directory. -/
def Starts (t : FileTree) (p : Path) : Prop := t.entry? (p.start t.current) = some .directory

theorem Starts.follow (h : t.Starts p) (wf : t.WellFormed) (k : Nat) (rest : List Name) :
    t.follow .entry k [] (p.start t.current ++ rest) = t.follow .entry k (p.start t.current) rest := by
  have hdir : t.entry? ([] ++ p.start t.current) = some .directory := h
  rw [follow_append_location wf hdir, List.nil_append]

theorem Starts.names_absolute (h : t.Starts p) (wf : t.WellFormed) :
    (t.absolute p).names = p.start t.current ++ p.names := by
  rw [Starts, start] at h
  rw [absolute, start]
  split
  · rfl
  · rename_i hrelative
    rw [if_neg hrelative] at h
    have hnames := wf.names (Option.ne_none_iff_exists'.mpr ⟨_, h⟩)
    rw [names_join_of_relative _ (by simpa using hrelative), names_ofLocation fun n hn => (hnames n hn).spelled]

theorem Starts.spoken_absolute (h : t.Starts p) (wf : t.WellFormed) :
    (t.absolute p).spoken = p.start t.current ++ p.spoken := by
  have hstart : telling (p.start t.current) = p.start t.current := by
    refine List.filter_eq_self.mpr fun n hn => ?_
    simp [(wf.names (Option.ne_none_iff_exists'.mpr ⟨_, h⟩) n hn).not_silent]
  rw [spoken_eq, h.names_absolute wf, telling, List.filter_append, spoken_eq p]
  exact congrArg (· ++ telling p.names) hstart

theorem Starts.of_find (h : t.find p = .ok (l, e)) : t.Starts p := by
  obtain ⟨hfault, hfollows⟩ := find_eq_ok_iff.mp h
  by_cases habs : p.isAbsolute = true
  · rw [Starts, start, if_pos habs]
    rfl
  · refine hfollows.directory_of_ne_nil fun hsteps => ?_
    have htext : p.text ≠ [] := fun htext => by simp [fault?, htext] at hfault
    exact names_ne_nil_of_relative (by simpa using habs) htext (List.append_eq_nil_iff.mp hsteps).1

/-- A path with something to it leads to the same place from the top, if it can be looked up there. -/
theorem Starts.find_absolute (h : t.Starts p) (wf : t.WellFormed) (hwhole : (t.absolute p).fault? = none)
    (htext : p.text ≠ []) : t.find (t.absolute p) = t.find p := by
  by_cases habs : p.isAbsolute = true
  · rw [absolute, if_pos habs]
  · have hjoin : p.text <:+ (t.absolute p).text := by
      rw [absolute, if_neg habs]
      exact join_suffix _ _
    have hsteps : (t.absolute p).steps = p.start t.current ++ p.steps := by
      rw [steps, steps, h.names_absolute wf, endsInSlash_of_suffix hjoin htext, List.append_assoc]
    rw [find, find, lookup, lookup, hwhole, fault?_of_infix hjoin.isInfix htext hwhole, hsteps]
    dsimp only
    rw [show (t.absolute p).start t.current = [] from if_pos (isAbsolute_absolute t p), h.follow wf]

/-- A path that is put together from parts is found if those that say something lead somewhere. -/
theorem find_ofParts (hparts : ∀ part ∈ parts, '/' ∉ part) (hfault : (ofParts ['/'] parts).fault? = none)
    (hlast : e = .directory ∨ ∀ n ∈ parts.getLast?, isSilent n = false)
    (h : t.Follows .entry linkLimit [] (telling parts) (.present l e)) :
    t.find (ofParts ['/'] parts) = .ok (l, e) := by
  have hnames := names_ofParts hparts
  have htelling := telling_names_ofParts hparts
  rw [← htelling] at h
  have hdirectory : e = .directory → t.find (ofParts ['/'] parts) = .ok (l, e) := by
    rintro rfl
    exact find_of_follows_names hfault (h.of_telling (.inl rfl))
  rcases hlast with he | hlast
  · exact hdirectory he
  · cases hn : parts.getLast? with
    | none =>
      obtain rfl := List.getLast?_eq_none_iff.mp hn
      have hnil : telling (ofParts ['/'] []).names = [] := htelling
      rw [hnil] at h
      cases h with
      | arrive h => exact hdirectory (Option.some.inj h).symm
    | some n =>
      have hsilent := hlast n hn
      have hspelled : Spelled n := ⟨fun hnil => by simp [isSilent, hnil] at hsilent, hparts n (List.mem_of_getLast? hn)⟩
      obtain ⟨front, rfl⟩ := List.getLast?_eq_some_iff.mp hn
      have hlast' : ∀ m ∈ (ofParts ['/'] (front ++ [n])).names.getLast?, isSilent m = false := by
        rw [hnames, List.filter_append, List.filter_cons_of_pos (by simp [hspelled.ne_nil]), List.filter_nil,
          List.getLast?_concat]
        simpa using hsilent
      -- The last part says something, so the path has no slash at its end and may lead to a file.
      have hslash : (ofParts ['/'] (front ++ [n])).endsInSlash = false := endsInSlash_joinWith ['/'] hn hspelled
      refine find_eq_ok_iff.mpr ⟨hfault, ?_⟩
      rw [steps, hslash, if_neg (by simp), List.append_nil]
      exact h.of_telling (.inr hlast')

/-- The last of the parts are names that are put below the place that the parts before them lead to. -/
structure Settles (t : FileTree) (parts : List Name) (m : Location) (front ns : List Name) : Prop where
  spoken : telling parts = front ++ ns
  ne_dots : ∀ n ∈ ns, n ≠ dots
  follows : ∃ e, t.Follows .entry linkLimit [] front (.present m e) ∧
    (ns = [] → t.find (ofParts ['/'] parts) = .ok (m, e))
  missing : ns ≠ [] → ∀ found, t.find (ofParts ['/'] parts) ≠ .ok found
  next : ∀ n rest, ns = n :: rest → rest ≠ [] → ∃ up, up <+: parts ∧ (∀ part ∈ up.getLast?, isSilent part = false) ∧
    telling up = front ++ [n] ∧ ∀ found, t.find (ofParts ['/'] up) ≠ .ok found

theorem settles_of_find (hparts : ∀ part ∈ parts, '/' ∉ part) (h : t.find (ofParts ['/'] parts) = .ok (l, e)) :
    t.Settles parts l (telling parts) [] := by
  have hfollows := (follows_names_of_find h).spoken
  rw [spoken_eq, telling_names_ofParts hparts] at hfollows
  exact ⟨by simp, by simp, ⟨e, hfollows, fun _ => h⟩, by simp, by simp⟩

/-- The name at the end of parts that are not found comes behind what the parts above them settle on. -/
theorem Settles.below {up : List Name} {m : Location} (h : t.Settles up m front ns) (hup : parentParts? parts = some up)
    (hn : (telling parts).getLast? = some n) (hdots : n ≠ dots)
    (hmissing : ∀ found, t.find (ofParts ['/'] parts) ≠ .ok found) : t.Settles parts m front (ns ++ [n]) where
  spoken := by
    obtain ⟨-, n', htelling⟩ := parentParts?_eq_some hup
    rw [htelling, List.getLast?_concat] at hn
    rw [htelling, h.spoken, Option.some.inj hn, List.append_assoc]
  ne_dots part hpart := by
    rcases List.mem_append.mp hpart with hpart | hpart
    · exact h.ne_dots part hpart
    · rw [List.mem_singleton.mp hpart]
      exact hdots
  follows := by
    obtain ⟨e, hfollows, -⟩ := h.follows
    exact ⟨e, hfollows, by simp⟩
  missing _ := hmissing
  next first rest hcons hrest := by
    cases ns with
    | nil => exact absurd (List.cons.inj hcons).2.symm hrest
    | cons part ns =>
      obtain ⟨rfl, -⟩ := List.cons.inj hcons
      have hprefix := parentParts?_isPrefix hup
      by_cases hnil : ns = []
      · obtain ⟨hlast, -⟩ := parentParts?_eq_some hup
        subst hnil
        exact ⟨up, hprefix, hlast, h.spoken, h.missing (by simp)⟩
      · obtain ⟨above, habove, hrest⟩ := h.next part ns rfl hnil
        exact ⟨above, habove.trans hprefix, hrest⟩

theorem settle_eq_ok (hparts : ∀ part ∈ parts, '/' ∉ part)
    (h : t.settle (ofParts ['/'] parts :: ancestorsOf ['/'] parts) = .ok l) :
    ∃ m front ns, t.Settles parts m front ns ∧ l = m ++ ns := by
  induction parts using ancestorsOf.induct generalizing l with
  | case1 parts up hup ih =>
    rw [settle] at h
    split at h
    · rename_i e hfind
      obtain rfl := Except.ok.inj h
      exact ⟨_, _, [], settles_of_find hparts hfind, (List.append_nil _).symm⟩
    · rename_i fault hfind
      split at h
      · -- The path is missing: its last name is put below what the path above it settles on.
        rename_i n hname
        rw [ancestorsOf, hup] at h
        cases hsettle : t.settle (ofParts ['/'] up :: ancestorsOf ['/'] up) with
        | error fault' => simp [hsettle, Except.map] at h
        | ok l' =>
          rw [hsettle] at h
          obtain rfl := Except.ok.inj h
          obtain ⟨hn, hdots⟩ := fileName?_eq_some.mp hname
          rw [spoken_eq, telling_names_ofParts hparts] at hn
          have hslashes : ∀ part ∈ up, '/' ∉ part := fun part hpart =>
            hparts part ((parentParts?_isPrefix hup).subset hpart)
          obtain ⟨m, front, ns, hup', rfl⟩ := ih hslashes hsettle
          have hmissing : ∀ found, t.find (ofParts ['/'] parts) ≠ .ok found := fun found hfound =>
            absurd (hfind.symm.trans hfound) (by simp)
          exact ⟨m, front, ns ++ [n], hup'.below hup hn hdots hmissing, List.append_assoc _ _ _⟩
      · exact absurd h (by simp)
  | case2 parts hnone =>
    rw [settle] at h
    split at h
    · rename_i e hfind
      obtain rfl := Except.ok.inj h
      exact ⟨_, _, [], settles_of_find hparts hfind, (List.append_nil _).symm⟩
    · rw [ancestorsOf, hnone] at h
      split at h <;> simp [settle, Except.map] at h

/-- The first of the names that are put below leads nowhere if there are more of them, and to no directory. -/
theorem Settles.not_follows (h : t.Settles parts l front (n :: rest)) (hparts : ∀ part ∈ parts, '/' ∉ part)
    (hfault : (ofParts ['/'] parts).fault? = none) (hrest : rest ≠ [] ∨ e = .directory) {m : Location} :
    ¬ t.Follows .entry linkLimit [] (front ++ [n]) (.present m e) := by
  intro hfollows
  by_cases hnil : rest = []
  · subst hnil
    rw [← h.spoken] at hfollows
    exact h.missing (by simp) _ (find_ofParts hparts hfault (.inl (by simpa using hrest)) hfollows)
  · obtain ⟨up, hup, hlast, hspoken, hmissing⟩ := h.next n rest rfl hnil
    have hprefix : (ofParts ['/'] up).text <+: (ofParts ['/'] parts).text :=
      (List.prefix_append_right_inj _).mpr (Text.joinWith_isPrefix hup)
    rw [← hspoken] at hfollows
    refine hmissing _ (find_ofParts (fun part hpart => hparts part (hup.subset hpart)) ?_ (.inr hlast) hfollows)
    exact fault?_of_infix hprefix.isInfix (by simp [ofParts]) hfault

theorem no_slash_of_mem_parts {part : Name} (h : part ∈ p.parts) : '/' ∉ part := Text.notMem_of_mem_splitOn h

theorem exists_settles (h : t.resolve p = .ok l) :
    t.Starts p ∧ ∃ m front ns, t.Settles (t.absolute p).parts m front ns ∧ l = m ++ ns := by
  obtain ⟨hlead, habsolute⟩ := t.absolute_eq_ofParts p
  rw [resolve] at h
  split at h
  · exact absurd h (by simp)
  · rename_i hstart
    refine ⟨?_, settle_eq_ok (fun _ => no_slash_of_mem_parts) ?_⟩
    · rw [Starts, start]
      split
      · rfl
      · rename_i hrelative
        simpa [hrelative, any_isDirectory] using hstart
    · rw [ancestors, hlead] at h
      rw [← habsolute]
      exact h

/-- The last names of a resolved path come behind the place that the others lead to. -/
theorem exists_follows_of_resolve (wf : t.WellFormed) (h : t.resolve p = .ok l) :
    ∃ front ns m e, p.spoken = front ++ ns ∧ (∀ n ∈ ns, n ≠ dots) ∧
      t.Follows .entry linkLimit (p.start t.current) front (.present m e) ∧ l = m ++ ns := by
  obtain ⟨hstart, m, front, ns, hsettles, rfl⟩ := exists_settles h
  obtain ⟨e, hfollows, -⟩ := hsettles.follows
  have hspoken := hsettles.spoken
  rw [telling, filter_parts, hstart.spoken_absolute wf] at hspoken
  rcases List.append_eq_append_iff.mp hspoken with ⟨more, rfl, hmore⟩ | ⟨more, hmore, rfl⟩
  · refine ⟨more, ns, m, e, hmore, hsettles.ne_dots, follows_of_follow ?_, rfl⟩
    exact (hstart.follow wf _ _).symm.trans (follow_of_follows hfollows)
  · -- The start itself is too long to be looked up from the top.
    have hfront : t.entry? ([] ++ front) = some .directory := by
      by_cases hne : front = p.start t.current
      · rw [hne]
        exact hstart
      · exact wf.directory (Option.ne_none_iff_exists'.mpr ⟨_, hstart⟩) ⟨more, hmore.symm⟩ hne
    obtain ⟨rfl, -⟩ := Place.present.inj ((follows_location wf hfront).unique hfollows)
    refine ⟨[], p.spoken, p.start t.current, .directory, rfl, ?_, .arrive hstart, ?_⟩
    · exact fun n hn => hsettles.ne_dots n (List.mem_append_right _ hn)
    · rw [hmore]
      simp

/-- The start of a path that can be looked up from the top is one of the places that its names lead to. -/
theorem Settles.start_isPrefix (h : t.Settles (t.absolute p).parts l front (n :: rest)) (wf : t.WellFormed)
    (hstart : t.Starts p) (hwhole : (ofParts ['/'] (t.absolute p).parts).fault? = none) :
    p.start t.current <+: front := by
  have hspoken := h.spoken
  rw [telling, filter_parts, hstart.spoken_absolute wf] at hspoken
  rcases List.prefix_or_prefix_of_prefix ⟨_, hspoken⟩ ⟨_, rfl⟩ with hbefore | ⟨more, hmore⟩
  · exact hbefore
  · cases more with
    | nil => exact ⟨[], by simp [← hmore]⟩
    | cons n' more =>
      rw [← hmore, List.append_assoc, List.append_cancel_left_eq, List.cons_append] at hspoken
      obtain ⟨rfl, -⟩ := List.cons.inj hspoken
      have hdir : t.entry? ([] ++ (front ++ [n'])) = some .directory := by
        by_cases hne : front ++ [n'] = p.start t.current
        · rw [hne]
          exact hstart
        · exact wf.directory (Option.ne_none_iff_exists'.mpr ⟨_, hstart⟩) ⟨more, by simp [← hmore]⟩ hne
      exact absurd (follows_location wf hdir) (h.not_follows (fun _ => no_slash_of_mem_parts) hwhole (.inr rfl))

/-- The last names of a path are missing below the place that the names before them lead to. -/
structure Lacks (t : FileTree) (p : Path) (l : Location) (front ns : List Name) : Prop where
  spoken : p.spoken = front ++ ns
  ne_nil : ns ≠ []
  ne_dots : ∀ n ∈ ns, n ≠ dots
  follows : ∃ e, t.Follows .entry linkLimit (p.start t.current) front (.present l e)
  next : ∀ n rest, ns = n :: rest → rest ≠ [] → ∀ l e,
    ¬ t.Follows .entry linkLimit (p.start t.current) (front ++ [n]) (.present l e)

/-- A path that can be looked up from the top is resolved to where it leads, or its last names are missing and come
to lie below what is there. -/
theorem resolve_eq_ok (wf : t.WellFormed) (hwhole : (t.absolute p).fault? = none) (htext : p.text ≠ [])
    (h : t.resolve p = .ok l) : (∃ e, t.find p = .ok (l, e)) ∨
      (∀ found, t.find p ≠ .ok found) ∧ ∃ m front ns, t.Lacks p m front ns ∧ l = m ++ ns := by
  obtain ⟨hstart, m, front, ns, hsettles, rfl⟩ := exists_settles h
  obtain ⟨-, habsolute⟩ := t.absolute_eq_ofParts p
  have hfind := hstart.find_absolute wf hwhole htext
  rw [habsolute] at hfind hwhole
  obtain ⟨e, hfollows, hfound⟩ := hsettles.follows
  cases ns with
  | nil =>
    rw [List.append_nil]
    exact .inl ⟨e, hfind.symm.trans (hfound rfl)⟩
  | cons n rest =>
    refine .inr ⟨fun found hp => hsettles.missing (by simp) found (hfind.trans hp), ?_⟩
    have hbefore : p.start t.current <+: front := hsettles.start_isPrefix wf hstart hwhole
    obtain ⟨more, rfl⟩ := hbefore
    have hspoken := hsettles.spoken
    rw [telling, filter_parts, hstart.spoken_absolute wf, List.append_assoc, List.append_cancel_left_eq] at hspoken
    refine ⟨m, more, n :: rest, ⟨hspoken, by simp, hsettles.ne_dots, ⟨e, follows_of_follow ?_⟩, ?_⟩, rfl⟩
    · exact (hstart.follow wf _ _).symm.trans (follow_of_follows hfollows)
    · intro n' rest' hcons hrest l' e' hnext
      obtain ⟨rfl, rfl⟩ := List.cons.inj hcons
      have hall := (hstart.follow wf _ _).trans (follow_of_follows hnext)
      rw [← List.append_assoc] at hall
      exact hsettles.not_follows (fun _ => no_slash_of_mem_parts) hwhole (.inl hrest) (follows_of_follow hall)

theorem resolve_of_find (wf : t.WellFormed) (hwhole : (t.absolute p).fault? = none) (h : t.find p = .ok (l, e)) :
    t.resolve p = .ok l := by
  have hstart := Starts.of_find h
  have htext : p.text ≠ [] := by
    obtain ⟨hfault, -⟩ := find_eq_ok_iff.mp h
    exact fun htext => by simp [fault?, htext] at hfault
  have hdirectory : ¬ (!p.isAbsolute && !(t.entry? t.current).any Entry.isDirectory) = true := by
    rw [Starts, start] at hstart
    cases habs : p.isAbsolute with
    | true => simp
    | false =>
      rw [habs, if_neg (by simp)] at hstart
      simp [any_isDirectory.mpr hstart]
  rw [resolve, if_neg hdirectory, ancestors, settle, hstart.find_absolute wf hwhole htext, h]

theorem eq_current_of_resolve (wf : t.WellFormed) (htext : p.text = []) (h : t.resolve p = .ok l) : l = t.current := by
  obtain ⟨front, ns, m, e, hfront, -, hfollows, rfl⟩ := exists_follows_of_resolve wf h
  obtain ⟨text⟩ := p
  subst htext
  obtain ⟨rfl, rfl⟩ := List.append_eq_nil_iff.mp hfront.symm
  cases hfollows with
  | arrive => exact List.append_nil _

theorem eq_nil_of_parent?_eq_none (hparent : p.parent? = none) (h : t.find p = .ok (l, e)) : l = [] := by
  obtain ⟨hfault, -⟩ := find_eq_ok_iff.mp h
  obtain ⟨habs, hspoken⟩ := spoken_of_parent?_eq_none hparent fun htext => by simp [fault?, htext] at hfault
  have hfollows := (follows_names_of_find h).spoken
  rw [hspoken, start, habs] at hfollows
  cases hfollows with
  | arrive => rfl

/-- The top is resolved only if it is found, as there is no name to put below anything. -/
theorem find_of_parent?_eq_none (hparent : p.parent? = none) (htext : p.text ≠ []) (h : t.resolve p = .ok l) :
    l = [] ∧ t.find p = .ok ([], .directory) := by
  obtain ⟨habs, hspoken⟩ := spoken_of_parent?_eq_none hparent htext
  obtain ⟨-, m, front, ns, hsettles, rfl⟩ := exists_settles h
  obtain ⟨-, habsolute⟩ := t.absolute_eq_ofParts p
  obtain ⟨e, hfollows, hfound⟩ := hsettles.follows
  have hnil := hsettles.spoken
  rw [absolute, if_pos habs, telling, filter_parts, hspoken] at hnil
  obtain ⟨rfl, rfl⟩ := List.append_eq_nil_iff.mp hnil.symm
  rw [← habsolute, absolute, if_pos habs] at hfound
  cases hfollows with
  | arrive hentry =>
    obtain rfl := Option.some.inj hentry
    exact ⟨List.append_nil _, hfound rfl⟩

theorem start_of_isAbove {up : Path} (h : up.IsAbove p) (here : Location) : up.start here = p.start here := by
  rw [start, start, h.1]

/-- A path that leads somewhere has no free name on its way. -/
theorem Makes.not_follows_names {up : Path} {m : Location} {front : List Name} (h : t.Makes up l n front)
    (habove : up.IsAbove p) : ¬ t.Follows .entry linkLimit (p.start t.current) p.names (.present m e) := by
  intro hnames
  obtain ⟨more, hmore⟩ := habove.2
  have hfollows := h.follows
  rw [start_of_isAbove habove] at hfollows
  rw [← hmore, h.names] at hnames
  obtain ⟨m', e', hfront⟩ := hnames.exists_front (.inl rfl) (by simp)
  obtain ⟨j, -, hlast⟩ := hfront.append (.inl rfl) hfollows
  exact h.not_follows hlast

/-- A directory that is made on the way of a path lies behind every front of it that leads to something. -/
theorem Makes.exists_spoken {up : Path} {m : Location} {front front' ns : List Name} (hmakes : t.Makes up l n front')
    (habove : up.IsAbove p) (hspoken : p.spoken = front ++ ns)
    (hfront : t.Follows .entry linkLimit (p.start t.current) front (.present m e)) :
    ∃ mid rest, ns = mid ++ n :: rest ∧
      t.Follows .entry linkLimit (p.start t.current) (front ++ mid) (.present l .directory) := by
  obtain ⟨more, hmore⟩ := habove.2
  have hsilent : (!isSilent n) = true := by simp [hmakes.proper.not_silent]
  have hfollows := hmakes.follows.filter_silent
  rw [start_of_isAbove habove] at hfollows
  rw [spoken_eq, ← hmore, hmakes.names, List.append_assoc, telling, List.filter_append, List.singleton_append,
    List.filter_cons_of_pos (by exact hsilent)] at hspoken
  rcases List.append_eq_append_iff.mp hspoken with ⟨mid, hmid, hns⟩ | ⟨mid, hmid, hns⟩
  · cases mid with
    | nil =>
      rw [List.append_nil] at hmid
      refine ⟨[], _, hns.symm, ?_⟩
      rw [List.append_nil, hmid]
      exact hfollows
    | cons first mid =>
      -- The name would be there already.
      obtain ⟨rfl, -⟩ := List.cons.inj hns
      rw [hmid, List.append_cons] at hfront
      obtain ⟨m', e', hname⟩ := hfront.exists_front (.inl rfl) (by simp)
      obtain ⟨j, -, hlast⟩ := hname.append (.inl rfl) hfollows
      exact absurd hlast hmakes.not_follows
  · rw [hmid] at hfollows
    exact ⟨mid, _, hns, hfollows⟩

end FileTree

end Florin
