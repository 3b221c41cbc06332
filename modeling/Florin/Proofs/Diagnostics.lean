import Florin.Cli.Run
import Florin.Proofs.Build.Actions
import Florin.Proofs.Images

/-! # Diagnostics and the files they name

A check and a build tell of a sigil that is left by the name of the source file, with a line and a column. These
are the line and the column of its image in the expansion. They are those of the sigil itself where nothing is
replaced before it on its line and no line break is lost; elsewhere they may belong to another character, or to
none at all.
-/
namespace Florin
open Text Lexical

/-- At the line and the column of a text there is a sigil in code that the scan leaves in place. -/
def LeftAt (w : Keyword) (cs : List Char) (line column : Nat) : Prop :=
  ∃ front, front ++ [sigil] <+: cs ∧ (Site.atEnd front).line = line ∧ (Site.atEnd front).column = column ∧
    Scan.CodeAt cs front.length ∧ ⟨front.length, .leftover⟩ ∈ (Scan.ofText w cs).attempts

theorem LeftAt.column_le {w : Keyword} {cs : List Char} {line column : Nat} (h : LeftAt w cs line column) :
    column ≤ cs.length := by
  obtain ⟨front, hprefix, -, rfl, -⟩ := h
  have hlength := hprefix.length_le
  have hline : (lastLine front).length ≤ front.length := (List.rtakeWhile_suffix _ _).length_le
  simp only [List.length_append, List.length_singleton] at hlength
  simp only [Site.atEnd]
  omega

namespace Build
variable {c : Config} {path output : Path} {s : State} {text : String}

def warnings (events : List Log.Event) : List Log.Event := events.filter (·.level = .warn)

theorem warnings_append (events more : List Log.Event) : warnings (events ++ more) = warnings events ++ warnings more :=
  List.filter_append _ _

theorem warnings_expansionEvents (text : String) : warnings (expansionEvents text) = [] := by
  simp [warnings, expansionEvents]

theorem warnings_leftoverEvents (path : Path) (sites : List Site) :
    warnings (sites.map (leftoverEvent path)) = sites.map (leftoverEvent path) := by
  simp [warnings, leftoverEvent]

theorem onDisk_keeps_log {α : Type} {wrap : FileError → BuildError} {d : Disk α} :
    Ends (onDisk wrap d) s fun _ s' => s'.log = s.log := by
  rw [ends_onDisk]
  exact rfl

theorem ensureParent_keeps_log : Ends (ensureParent output) s fun _ s' => s'.log = s.log := by
  rw [ensureParent]
  split
  · exact onDisk_keeps_log
  · exact rfl

/-- A file that is expanded is warned about by the sites in its expansion, whether or not its output can be
written. -/
theorem warnings_transformFile (c : Config) (output : Path) (htext : s.tree.text path = .ok text) :
    Ends (transformFile c path output) s fun _ s' => warnings s'.log = warnings s.log ++
      (leftoverSites (expandText c.keyword text).toList).map (leftoverEvent path) := by
  rw [transformFile, ends_bind, ends_onDisk, ends_readText, htext]
  dsimp only [Except.mapError]
  rw [ends_bind]
  refine (ends_log _).mono ?_
  rintro _ _ ⟨rfl, rfl⟩
  dsimp only
  rw [ends_bind]
  refine (ends_note path output _).mono ?_
  rintro _ _ ⟨rfl, rfl⟩
  dsimp only
  refine Ends.bind_keeps (ensureParent_keeps_log.mono fun _ s' hlog => ?_) fun _ s' hs' => ?_
  · rw [hlog]
    simp only [warnings_append, warnings_expansionEvents, warnings_leftoverEvents, List.append_nil]
  refine Ends.bind_keeps (onDisk_keeps_log.mono fun _ s'' hlog => ?_) fun _ s'' hs'' => ?_
  · rw [hlog, hs']
  · refine Ends.bind_keeps ?_ fun _ _ hs => hs
    rw [log, ends_modify, warnings_append, hs'']
    exact List.append_nil _

end Build

/-- What is told of a source file, given the images of the sigils that are left in it. -/
structure Diagnoses (w : Keyword) (source : String) (images : List Image) : Prop where
  /-- They are the images of all the sigils that the scan leaves in place, in order. -/
  attempts : images.map (fun i => ⟨i.source.length, .leftover⟩) =
    (Scan.ofText w source.toList).attempts.filter fun a => a.outcome = .leftover
  /-- Each is a sigil in the code of the source and one in the expansion. -/
  points : ∀ i ∈ images, i.source ++ [sigil] <+: source.toList ∧ Scan.CodeAt source.toList i.source.length ∧
    i.output ++ [sigil] <+: (expandText w source).toList
  /-- What is told of it is no later line than its own. -/
  lines : ∀ i ∈ images, (Site.atEnd i.output).line ≤ (Site.atEnd i.source).line
  /-- Where the expansion keeps its line and what is before it on that, what is told of it is right. -/
  kept : ∀ i ∈ images, i.Keeps → LeftAt w source.toList (Site.atEnd i.output).line (Site.atEnd i.output).column
  sites : leftoverSites (expandText w source).toList = images.map fun i => Site.atEnd i.output
  check : ∀ (t : FileTree) (input : Path), t.text input = .ok source → ∀ i more, images = i :: more →
    (Cli.runCheck input w t).result = .error ⟨"check failed: " ++
      (Check.Problem.leftover (Site.atEnd i.output) images.length).message input.toString, none⟩
  warnings : ∀ (c : Config) (path output : Path) (s : Build.State), c.keyword = w → s.tree.text path = .ok source →
    Ends (Build.transformFile c path output) s fun _ s' => Build.warnings s'.log = Build.warnings s.log ++
      images.map fun i => Build.leftoverEvent path (Site.atEnd i.output)

theorem leftAt_of_keeps {w : Keyword} {cs : List Char} {i : Image} (hi : i.Aligned) (hk : i.Keeps)
    (hsource : i.source ++ [sigil] <+: cs) (hleft : ⟨i.source.length, .leftover⟩ ∈ (Outline.ofText cs).attempts 0) :
    LeftAt w cs (Site.atEnd i.output).line (Site.atEnd i.output).column := by
  obtain ⟨hline, hcolumn⟩ := hi.atEnd_of_keeps hk
  refine ⟨i.source, hsource, hline.symm, hcolumn.symm, Outline.codeAt_of_mem_attempts hleft, ?_⟩
  rwa [Scan.ofText_eq]

/-- Where no sigil follows a cut and none is in a name, a check and a build tell of the images of the sigils that
are left. A line that is told of is never later than that of the sigil. It is the sigil's own, and so is the column,
where nothing is replaced before the sigil on its line and no line break is lost. -/
theorem diagnoses_images (w : Keyword) (source : String)
    (hcut : ∀ m ∈ fromCut ((Outline.ofText source.toList).marks w), m = .cut)
    (hname : .inName ∉ (Outline.ofText source.toList).marks w) :
    Diagnoses w source ((Outline.ofText source.toList).images w .start) := by
  have hattempts := (Outline.ofText source.toList).map_images w .start
  have hexpand : (expandText w source).toList = (Outline.ofText source.toList).render w := by
    rw [expandText, String.toList_ofList, expand_eq_render]
  have hsites := Outline.leftoverSites_render source.toList w hcut hname
  have hleft {i : Image} (hi : i ∈ (Outline.ofText source.toList).images w .start) :
      ⟨i.source.length, .leftover⟩ ∈ (Outline.ofText source.toList).attempts 0 :=
    List.mem_of_mem_filter (hattempts ▸ List.mem_map_of_mem hi)
  have hsource {i : Image} (hi : i ∈ (Outline.ofText source.toList).images w .start) :
      i.source ++ [sigil] <+: source.toList := Outline.source_of_mem_images hi
  have haligned {i : Image} (hi : i ∈ (Outline.ofText source.toList).images w .start) : i.Aligned :=
    Outline.aligned_of_mem_images .start hi
  constructor
  case attempts => rwa [Scan.ofText_eq]
  case points =>
    intro i hi
    refine ⟨hsource hi, Outline.codeAt_of_mem_attempts (hleft hi), ?_⟩
    rw [hexpand]
    exact Outline.output_of_mem_images hi
  case lines => exact fun i hi => (haligned hi).line_le
  case kept => exact fun i hi hk => leftAt_of_keeps (haligned hi) hk (hsource hi) (hleft hi)
  case sites => rw [hexpand, hsites]
  case check =>
    intro t input htext i more hmore
    rw [hmore] at hsites ⊢
    rw [Cli.runCheck, htext]
    simp only [Check.output, expand_eq_render, hsites, List.map_cons, List.length_cons, List.length_map]
  case warnings =>
    rintro c path output s rfl htext
    have hwarnings := Build.warnings_transformFile c output htext
    rwa [hexpand, hsites, List.map_map] at hwarnings

/-- A sigil on a later line than the shorthand before it is told of where it stands. -/
theorem diagnoses_images_of_newline : Diagnoses .var "ƒ() x,\n ƒ;"
    [⟨"ƒ() x".toList, "(() => x)".toList, ",\n ".toList⟩] := by
  have himages : (Outline.ofText "ƒ() x,\n ƒ;".toList).images .var .start =
      [⟨"ƒ() x".toList, "(() => x)".toList, ",\n ".toList⟩] := by decide +kernel
  exact himages ▸ diagnoses_images .var "ƒ() x,\n ƒ;" (by decide +kernel) (by decide +kernel)

/-- A file with a shorthand and a sigil on one line. -/
def oneLine : FileTree where
  entries := [(["a.fjs".toList], .file "ƒ() x, ƒ;".toUTF8)]
  current := []

theorem text_oneLine : oneLine.text (.ofString "a.fjs") = .ok "ƒ() x, ƒ;" := by
  have hfollows : oneLine.Follows .entry FileTree.linkLimit [] ["a.fjs".toList]
      (.present ["a.fjs".toList] (.file "ƒ() x, ƒ;".toUTF8)) :=
    .enter rfl ⟨by decide, by decide, by decide, by decide⟩ (by simp) rfl (by simp) (.arrive rfl)
  have hlookup : oneLine.lookup .entry (.ofString "a.fjs") =
      .ok (.present ["a.fjs".toList] (.file "ƒ() x, ƒ;".toUTF8)) :=
    FileTree.follow_of_follows hfollows
  have hdecoded : String.fromUTF8? "ƒ() x, ƒ;".toUTF8 = some "ƒ() x, ƒ;" := by decide +kernel
  rw [FileTree.text, FileTree.bytes, FileTree.find, hlookup]
  simp only [hdecoded]

/-- The line that is told of may be too short for the column. -/
theorem check_points_outside : (Cli.runCheck (.ofString "a.fjs") .var oneLine).result =
    .error ⟨"check failed: a.fjs:1:12: ƒ shorthand was not rewritten (1 occurrence(s))", none⟩ ∧
      oneLine.text (.ofString "a.fjs") = .ok "ƒ() x, ƒ;" ∧ ¬LeftAt .var "ƒ() x, ƒ;".toList 1 12 := by
  have hsites : leftoverSites (expand .var "ƒ() x, ƒ;".toList) = [⟨11, 1, 12⟩] := by decide +kernel
  refine ⟨?_, text_oneLine, fun h => absurd h.column_le (by decide)⟩
  rw [Cli.runCheck, text_oneLine]
  simp only [Check.output, hsites]
  decide +kernel

end Florin
