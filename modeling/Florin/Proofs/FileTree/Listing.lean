import Florin.Proofs.FileTree.Entries
import Mathlib.Data.List.Sort

/-! # Listing files

The files below a directory come in the order of the bytes of their names, with those of a directory in its place.
No other list holds the same files in this order.
-/
namespace Florin

/-- The encodings of two characters are in the order of the characters, whatever follows. -/
theorem utf8EncodeChar_lt {c d : Char} (h : c < d) (xs ys : List UInt8) :
    List.Lex (· < ·) (String.utf8EncodeChar c ++ xs) (String.utf8EncodeChar d ++ ys) := by
  have hlt : c.val.toNat < d.val.toNat := h
  have hd : d.val.toNat < 1114112 := by
    rcases d.valid with h | h
    · exact Nat.lt_trans h (by decide)
    · exact h.2
  -- The last byte has the last six bits, the one before it the six before these.
  have htwice (v : Nat) : v / 4096 = v / 64 / 64 := by omega
  have hthrice (v : Nat) : v / 262144 = v / 64 / 64 / 64 := by omega
  simp only [String.utf8EncodeChar, htwice, hthrice]
  split_ifs <;> simp only [List.cons_append, List.nil_append, List.cons_lex_cons_iff, UInt8.lt_iff_toNat_lt,
    ← UInt8.toNat_inj, UInt8.toNat_ofNat'] <;> omega

namespace Path

def encoded (n : Name) : List UInt8 := n.flatMap String.utf8EncodeChar

theorem encoded_lt {m n : Name} (h : List.Lex (· < ·) m n) : List.Lex (· < ·) (encoded m) (encoded n) := by
  induction h with
  | @nil c rest =>
    have hne : encoded (c :: rest) ≠ [] := by simp [encoded]
    obtain ⟨byte, more, hbytes⟩ := List.exists_cons_of_ne_nil hne
    rw [hbytes]
    exact .nil
  | rel h => exact utf8EncodeChar_lt h _ _
  | cons _ ih => exact List.append_left_lt ih

/-- Names that lead to a file, in the order of the bytes of each. -/
def Earlier (a b : List Name) : Prop := List.Lex (List.Lex (· < ·)) (a.map encoded) (b.map encoded)

theorem Earlier.of_lex {a b : List Name} (h : List.Lex (List.Lex (· < ·)) a b) : Earlier a b := by
  induction h with
  | nil => exact .nil
  | cons _ ih => exact .cons ih
  | rel h => exact .rel (encoded_lt h)

instance : Std.Irrefl Earlier := ⟨fun _ => List.lex_irrefl (List.lex_irrefl fun _ => UInt8.lt_irrefl _) _⟩

instance : Std.Antisymm Earlier where
  antisymm a b h h' := by
    have hname {m n : List UInt8} : List.Lex (· < ·) m n → ¬ List.Lex (· < ·) n m := List.lex_asymm UInt8.lt_asymm
    exact absurd h' (List.lex_asymm hname h)

theorem inOrder_iff {m n : Name} : inOrder m n = true ↔ List.le m n := by
  induction m generalizing n with
  | nil => exact iff_of_true rfl List.not_lex_nil
  | cons c m ih =>
    cases n with
    | nil => exact iff_of_false Bool.false_ne_true fun h => h .nil
    | cons d n =>
      have hcons : List.le (c :: m) (d :: n) ↔ c < d ∨ c = d ∧ List.le m n := List.cons_le_cons_iff
      rw [hcons, inOrder, Bool.or_eq_true, Bool.and_eq_true, decide_eq_true_eq, decide_eq_true_eq, ih]
      rfl

end Path

def Entry.bytes? : Entry → Option ByteArray
  | .file bytes => some bytes
  | _ => none

namespace FileTree

variable {t u : FileTree} {l top : Location} {n : Name} {names : List Name} {bytes : ByteArray}
  {files files' : List (List Name)}

/-- What the file at a location holds. -/
def contents (t : FileTree) (l : Location) : Option ByteArray := (t.entry? l).bind Entry.bytes?

theorem contents_eq_some : t.contents l = some bytes ↔ t.entry? l = some (.file bytes) := by
  rw [contents]
  cases h : t.entry? l with
  | none => simp
  | some e => cases e <;> simp [Entry.bytes?]

theorem contents_of_part (h : t.part top = u.part top) (hl : top <+: l) : t.contents l = u.contents l := by
  rw [contents, contents, entry?_of_part h hl]

theorem contents_of_directory (h : t.entry? l = some .directory) : t.contents l = none := by
  rw [contents, h]
  rfl

theorem contents_put (t : FileTree) (e : Entry) (h : l ≠ []) (m : Location) :
    (t.put l e).contents m = if m = l then e.bytes? else t.contents m := by
  rw [contents, entry?_put t e h]
  split <;> rfl

/-- The files below a location, each by the names that lead to it, in the order of their bytes. -/
structure Lists (t : FileTree) (top : Location) (files : List (List Name)) : Prop where
  mem : ∀ names, names ∈ files ↔ (t.contents (top ++ names)).isSome = true
  ordered : files.Pairwise Path.Earlier

theorem Lists.unique (h : t.Lists top files) (h' : t.Lists top files') : files = files' :=
  h.ordered.eq_of_mem_iff h'.ordered fun names => (h.mem names).trans (h'.mem names).symm

theorem WellFormed.children_pairwise (wf : t.WellFormed) (l : Location) :
    (t.children l).Pairwise fun x y => List.Lex (· < ·) x.1 y.1 := by
  have hunique : (t.children l).Pairwise fun x y => x.1 ≠ y.1 := by
    rw [children, (List.mergeSort_perm _ _).pairwise_iff Ne.symm]
    refine (List.pairwise_map.mp wf.unique).filterMap _ fun x y hxy a ha b hb hab => hxy ?_
    split at ha
    · rename_i hx
      obtain ⟨m, hm, rfl⟩ := Option.map_eq_some_iff.mp ha
      split at hb
      · rename_i hy
        obtain ⟨n, hn, rfl⟩ := Option.map_eq_some_iff.mp hb
        obtain rfl : m = n := hab
        rw [← List.dropLast_append_getLast? _ hm, ← List.dropLast_append_getLast? _ hn, hx, hy]
      · exact absurd hb (by simp)
    · exact absurd ha (by simp)
  have hsorted : (t.children l).Pairwise fun x y => Path.inOrder x.1 y.1 = true := by
    rw [children]
    refine List.pairwise_mergeSort (fun x y z hxy hyz => ?_) (fun x y => ?_) _
    · rw [Path.inOrder_iff] at hxy hyz ⊢
      exact List.le_trans hxy hyz
    · rw [Bool.or_eq_true, Path.inOrder_iff, Path.inOrder_iff]
      exact List.le_total _ _
  refine hsorted.imp₂ (fun x y hxy hne => ?_) hunique
  exact (List.le_iff_lt_or_eq.mp (Path.inOrder_iff.mp hxy)).resolve_right hne

def filesAt (t : FileTree) (depth : Nat) (l : Location) (x : Name × Entry) : List (List Name) :=
  match x.2 with
  | .file _ => [[x.1]]
  | .directory => (t.filesBelow depth (l ++ [x.1])).map (x.1 :: ·)
  | .link _ => []

theorem filesBelow_succ (t : FileTree) (depth : Nat) (l : Location) :
    t.filesBelow (depth + 1) l = (t.children l).flatMap (t.filesAt depth l) := rfl

theorem exists_cons_of_mem_filesAt {depth : Nat} {x : Name × Entry} (h : names ∈ t.filesAt depth l x) :
    ∃ rest, names = x.1 :: rest := by
  obtain ⟨n, e⟩ := x
  cases e with
  | file bytes => exact ⟨[], List.mem_singleton.mp h⟩
  | directory =>
    obtain ⟨rest, -, rfl⟩ := List.mem_map.mp h
    exact ⟨rest, rfl⟩
  | link target => exact absurd h (List.not_mem_nil)

theorem pairwise_filesBelow (wf : t.WellFormed) (depth : Nat) (l : Location) :
    (t.filesBelow depth l).Pairwise (List.Lex (List.Lex (· < ·))) := by
  induction depth generalizing l with
  | zero => exact .nil
  | succ depth ih =>
    rw [filesBelow_succ, List.pairwise_flatMap]
    constructor
    · rintro ⟨n, e⟩ -
      cases e with
      | file bytes => exact List.pairwise_singleton _ _
      | directory => exact (ih (l ++ [n])).map _ fun _ _ => .cons
      | link target => exact .nil
    · refine (wf.children_pairwise l).imp fun {x y} hxy a ha b hb => ?_
      obtain ⟨more, rfl⟩ := exists_cons_of_mem_filesAt ha
      obtain ⟨rest, rfl⟩ := exists_cons_of_mem_filesAt hb
      exact .rel hxy

theorem mem_filesBelow (wf : t.WellFormed) (depth : Nat) (hl : t.entry? l = some .directory) :
    names ∈ t.filesBelow depth l ↔ names.length ≤ depth ∧ (t.contents (l ++ names)).isSome = true := by
  induction depth generalizing l names with
  | zero =>
    simp only [filesBelow, List.not_mem_nil, Nat.le_zero, List.length_eq_zero_iff, false_iff, not_and]
    rintro rfl
    simp [contents_of_directory hl]
  | succ depth ih =>
    rw [filesBelow_succ, List.mem_flatMap]
    constructor
    · rintro ⟨⟨n, e⟩, hmem, hnames⟩
      have hentry := wf.mem_children.mp hmem
      cases e with
      | file bytes =>
        obtain rfl := List.mem_singleton.mp hnames
        simp [contents_eq_some.mpr hentry]
      | directory =>
        obtain ⟨rest, hrest, rfl⟩ := List.mem_map.mp hnames
        obtain ⟨hlength, hsome⟩ := (ih hentry).mp hrest
        rw [List.append_assoc, List.singleton_append] at hsome
        exact ⟨by simpa using hlength, hsome⟩
      | link target => exact absurd hnames List.not_mem_nil
    · rintro ⟨hlength, hsome⟩
      obtain ⟨bytes, hbytes⟩ := Option.isSome_iff_exists.mp hsome
      have hfile := contents_eq_some.mp hbytes
      cases names with
      | nil =>
        rw [List.append_nil, hl] at hfile
        exact absurd hfile (by simp)
      | cons n rest =>
        -- A file in the directory itself, or one below a member, which is a directory then.
        by_cases hrest : rest = []
        · subst hrest
          exact ⟨(n, .file bytes), wf.mem_children.mpr hfile, List.mem_singleton_self _⟩
        · rw [List.append_cons] at hfile hsome
          have hdir := wf.directory (Option.ne_none_iff_exists'.mpr ⟨_, hfile⟩) (List.prefix_append (l ++ [n]) rest)
            (by simpa using hrest)
          refine ⟨(n, .directory), wf.mem_children.mpr hdir, List.mem_map_of_mem ?_⟩
          exact (ih hdir).mpr ⟨by simpa using hlength, hsome⟩

/-- If no directory lies as deep as the depth, all files are listed. -/
theorem lists_filesBelow {depth : Nat} (wf : t.WellFormed) (hl : t.entry? l = some .directory)
    (hdepth : ∀ names, t.entry? (l ++ names) = some .directory → names.length < depth) :
    t.Lists l (t.filesBelow depth l) where
  mem names := by
    rw [mem_filesBelow wf depth hl, and_iff_right_iff_imp]
    intro hsome
    obtain ⟨bytes, hbytes⟩ := Option.isSome_iff_exists.mp hsome
    have hfile := contents_eq_some.mp hbytes
    rcases List.eq_nil_or_concat' names with rfl | ⟨front, n, rfl⟩
    · exact Nat.zero_le depth
    · rw [← List.append_assoc] at hfile
      have hparent := wf.parents _ n (Option.ne_none_iff_exists'.mpr ⟨_, hfile⟩)
      have hlength := hdepth front hparent
      simpa using Nat.succ_le_of_lt hlength
  ordered := (pairwise_filesBelow wf depth l).imp Path.Earlier.of_lex

end FileTree

end Florin
