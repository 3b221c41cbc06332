import Florin.Proofs.Build.Naming

/-! # Steps of a build

How the steps of a build end.
-/
namespace Florin

namespace Build
open FileTree Florin.Path

variable {s : State}

theorem ends_onDisk {α : Type} {wrap : FileError → BuildError} {d : Disk α}
    {Q : Except BuildError α → State → Prop} :
    Ends (onDisk wrap d) s Q ↔ Ends d s.tree fun r t => Q (r.mapError wrap) { s with tree := t } := by
  rw [onDisk, ends_bind, ends_get]
  unfold Ends
  dsimp only
  rcases d.run.run s.tree with ⟨a | e, t⟩ <;> rfl

/-- What is known of the tree stays known when directories on the way of an output are made. -/
structure Takes (output : Path) (I : FileTree → Prop) : Prop where
  directory : ∀ t up l n front, I t → up.IsAbove output → t.Makes up l n front → I (t.put (l ++ [n]) .directory)

namespace Takes

variable {output : Path} {I : FileTree → Prop} {t : FileTree}

theorem ends_makeDirectories (h : Takes output I) {up : Path} (hparent : output.parent? = some up) (ht : I t) :
    Ends (Disk.makeDirectories up) t fun _ u => I u := by
  by_cases hup : up.text = []
  · rw [Disk.makeDirectories, if_pos (by simp [hup])]
    exact ht
  · refine (Disk.ends_makeDirectories I ?_ ht).mono fun _ _ hu => hu.1
    intro above habove hne t u ht hmade
    obtain ⟨front, l, n, hmakes, rfl⟩ := makeDirectory_eq_ok hmade
    have houtput := (isAbove_of_mem_ancestors habove hne).trans (isAbove_of_parent? hparent hup)
    exact h.directory t above l n front ht houtput hmakes

theorem ends_ensureParent (h : Takes output I) (hs : I s.tree) :
    Ends (ensureParent output) s fun _ s' => I s'.tree ∧ s'.report = s.report := by
  rw [ensureParent]
  split
  · rename_i up hparent
    rw [ends_onDisk]
    exact (h.ends_makeDirectories hparent hs).mono fun _ _ hu => ⟨hu, rfl⟩
  · exact ⟨hs, rfl⟩

end Takes

theorem ends_writeFile {t : FileTree} {p : Path} {bytes : ByteArray} {Q : Except FileError Unit → FileTree → Prop} :
    Ends (Disk.writeFile p bytes) t Q ↔
      match t.write p bytes with
      | .ok u => Q (.ok ()) u
      | .error e => Q (.error e) t := by
  rw [Disk.writeFile, Disk.change, ends_bind, ends_get]
  dsimp only
  cases t.write p bytes <;> rfl

theorem ends_readText {t : FileTree} {p : Path} {Q : Except FileError String → FileTree → Prop} :
    Ends (Disk.readText p) t Q ↔ Q (t.text p) t := by
  rw [Disk.readText, ends_bind, ends_get]
  dsimp only
  cases t.text p <;> rfl

theorem ends_log (events : List Log.Event) :
    Ends (events.forM log) s fun r s' => r = .ok () ∧ s' = { s with log := s.log ++ events } := by
  induction events generalizing s with
  | nil =>
    rw [List.append_nil]
    exact ⟨rfl, rfl⟩
  | cons e events ih =>
    have hrest := ih (s := { s with log := s.log ++ [e] })
    rw [List.append_assoc, List.singleton_append] at hrest
    rw [List.forM, ends_bind]
    exact hrest

def noted (r : Report) (output : Path) (sites : List Site) : Report :=
  { r with leftovers := r.leftovers ++ sites.map fun site => ⟨output, site⟩ }

/-- The sites of an output are told of its source, and they are in the report. -/
theorem ends_note (path output : Path) (sites : List Site) :
    Ends (sites.forM fun site => do
      log (leftoverEvent path site)
      modify fun s => { s with report := { s.report with leftovers := s.report.leftovers ++ [⟨output, site⟩] } })
      s fun r s' => r = .ok () ∧
        s' = ⟨s.tree, noted s.report output sites, s.log ++ sites.map (leftoverEvent path)⟩ := by
  induction sites generalizing s with
  | nil =>
    simp only [noted, List.map_nil, List.append_nil]
    exact ⟨rfl, rfl⟩
  | cons site sites ih =>
    have hrest := ih (s := ⟨s.tree, noted s.report output [site], s.log ++ [leftoverEvent path site]⟩)
    simp only [noted, List.append_assoc, List.map_cons, List.map_nil, List.singleton_append] at hrest
    rw [List.forM, ends_bind]
    exact hrest

theorem ends_list {c : Config} {directory : Path} : Ends (list c directory) s fun r s' => s' = s ∧
    ∀ inside, r = .ok inside → ∃ l, s.tree.find directory = .ok (l, .directory) ∧ inside = s.tree.children l := by
  rw [list, ends_bind, ends_get]
  dsimp only
  split
  · rename_i l hfind
    exact ⟨rfl, fun inside hinside => ⟨l, hfind, (Except.ok.inj hinside).symm⟩⟩
  · exact ⟨rfl, fun inside hinside => absurd hinside (by simp)⟩
  · exact ⟨rfl, fun inside hinside => absurd hinside (by simp)⟩

variable {c : Config} {t : FileTree} {report : Report}

theorem ends_of_outcome (h : (run c t).outcome = .ok report) :
    Ends (build c) ⟨t, .empty, []⟩ fun r s => r = .ok () ∧ s.report = report := by
  change (((build c).run.run ⟨t, .empty, []⟩).1.map fun _ => ((build c).run.run ⟨t, .empty, []⟩).2.report) =
    .ok report at h
  unfold Ends
  cases hr : ((build c).run.run ⟨t, .empty, []⟩).1 with
  | ok =>
    rw [hr] at h
    exact ⟨rfl, Except.ok.inj h⟩
  | error fault =>
    rw [hr] at h
    exact absurd h (by simp [Except.map])

theorem outcome_eq_error {e : BuildError} :
    (run c t).outcome = .error e ↔ Ends (build c) ⟨t, .empty, []⟩ fun r _ => r = .error e := by
  change ((((build c).run.run ⟨t, .empty, []⟩).1.map fun _ => ((build c).run.run ⟨t, .empty, []⟩).2.report) =
    .error e) ↔ ((build c).run.run ⟨t, .empty, []⟩).1 = .error e
  cases ((build c).run.run ⟨t, .empty, []⟩).1 <;> simp [Except.map]

end Build

end Florin
