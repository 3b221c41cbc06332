import Florin.Proofs.Cursor.Scanners
import Florin.Proofs.Lexical.Places
import Mathlib.Data.List.DropRight

/-! # Sites by the text before them

A site is told by the text before it alone: its bytes, its line breaks, and the characters behind the last
one. The sites of a text are those of its sigils in code, and the loop that counts lines as it goes along
finds them.
-/
namespace Florin
open Text Lexical

def lastLine (cs : List Char) : List Char := cs.rtakeWhile (· ≠ '\n')

theorem lastLine_concat (front : List Char) (c : Char) :
    lastLine (front ++ [c]) = if c = '\n' then [] else lastLine front ++ [c] := by
  unfold lastLine
  split
  · rename_i hc
    exact List.rtakeWhile_concat_neg _ _ _ (by simpa using hc)
  · rename_i hc
    exact List.rtakeWhile_concat_pos _ _ _ (by simpa using hc)

namespace Site

def atEnd (before : List Char) : Site :=
  ⟨byteLength before, 1 + before.count '\n', 1 + (lastLine before).length⟩

theorem atEnd_concat (front : List Char) (c : Char) : (atEnd front).after c = atEnd (front ++ [c]) := by
  have hbytes : byteLength (front ++ [c]) = byteLength front + c.utf8Size := byteLength_append front [c]
  unfold atEnd after
  rw [lastLine_concat, hbytes, List.count_append]
  by_cases hc : c = '\n'
  · simp [hc, Nat.add_assoc]
  · simp [hc, Nat.add_assoc]

theorem foldl_after (front cs : List Char) : cs.foldl after (atEnd front) = atEnd (front ++ cs) := by
  induction cs generalizing front with
  | nil => rw [List.foldl_nil, List.append_nil]
  | cons c cs ih => rw [List.foldl_cons, atEnd_concat, ih, List.append_assoc, List.singleton_append]

theorem offset_atEnd_lt {front back : List Char} (h : back ≠ []) :
    (atEnd front).offset < (atEnd (front ++ back)).offset := by
  obtain ⟨c, back, rfl⟩ := List.exists_cons_of_ne_nil h
  have hpos := c.utf8Size_pos
  simp only [atEnd, byteLength_append, byteLength]
  omega

end Site

/-- Where the steps read a sigil in code, given the place of the first one. -/
def sigilPlaces (place : Nat) : List Step → List Nat
  | [] => []
  | s :: steps =>
    if s.isCodeChar sigil then place :: sigilPlaces (place + s.text.length) steps
    else sigilPlaces (place + s.text.length) steps

theorem mem_sigilPlaces {place n : Nat} {steps : List Step} : n ∈ sigilPlaces place steps ↔
    ∃ m s, n = place + m ∧ StepAt steps m s ∧ s.isCodeChar sigil = true := by
  induction steps generalizing place with
  | nil =>
    constructor
    · intro h
      simp [sigilPlaces] at h
    · rintro ⟨m, s, -, ⟨front, back, hcut, -⟩, -⟩
      simp at hcut
  | cons s steps ih =>
    have htail : n ∈ sigilPlaces (place + s.text.length) steps ↔
        ∃ m s', n = place + (s.text.length + m) ∧ StepAt steps m s' ∧ s'.isCodeChar sigil = true := by
      simp only [ih, Nat.add_assoc]
    have hcons : (∃ m s', n = place + m ∧ StepAt (s :: steps) m s' ∧ s'.isCodeChar sigil = true) ↔
        (n = place ∧ s.isCodeChar sigil = true) ∨
          ∃ m s', n = place + (s.text.length + m) ∧ StepAt steps m s' ∧ s'.isCodeChar sigil = true := by
      constructor
      · rintro ⟨m, s', rfl, ⟨front, back, hcut, rfl⟩, hsigil⟩
        cases front with
        | nil =>
          obtain ⟨rfl, rfl⟩ := List.cons.inj hcut
          exact Or.inl ⟨rfl, hsigil⟩
        | cons first front =>
          obtain ⟨rfl, rfl⟩ := List.cons.inj hcut
          exact Or.inr ⟨_, s', by simp, ⟨front, back, rfl, rfl⟩, hsigil⟩
      · rintro (⟨rfl, hsigil⟩ | ⟨m, s', rfl, hs, hsigil⟩)
        · exact ⟨0, s, rfl, StepAt.head s steps, hsigil⟩
        · exact ⟨_, s', rfl, hs.cons s, hsigil⟩
    rw [hcons, ← htail, sigilPlaces]
    split
    · rename_i hs
      simp [hs]
    · rename_i hs
      simp [hs]

theorem pairwise_sigilPlaces (place : Nat) (steps : List Step) :
    (sigilPlaces place steps).Pairwise (· < ·) := by
  induction steps generalizing place with
  | nil => exact .nil
  | cons s steps ih =>
    rw [sigilPlaces]
    split
    · rename_i hs
      refine List.pairwise_cons.mpr ⟨fun n hn => ?_, ih _⟩
      obtain ⟨m, s', rfl, -, -⟩ := mem_sigilPlaces.mp hn
      have hpos : 0 < s.text.length := by
        refine List.length_pos_iff.mpr fun hnil => ?_
        simp [Step.isCodeChar, hnil] at hs
      omega
    · exact ih _

/-- A site for each of the places, by the text before it. -/
theorem Site.ofSteps_atEnd (front : List Char) (steps : List Step) :
    ofSteps (atEnd front) steps =
      (sigilPlaces front.length steps).map fun n => atEnd ((front ++ spell steps).take n) := by
  induction steps generalizing front with
  | nil => rfl
  | cons s steps ih =>
    have hnext := ih (front ++ s.text)
    rw [List.append_assoc, List.length_append] at hnext
    rw [ofSteps, sigilPlaces, foldl_after, hnext, spell_cons]
    split
    · rw [List.map_cons, List.take_left]
    · rfl

theorem leftoverSites_eq (cs : List Char) : leftoverSites cs =
    (sigilPlaces 0 (trace .start cs)).map fun n => Site.atEnd (cs.take n) := by
  have hsites := Site.ofSteps_atEnd [] (trace .start cs)
  rw [List.nil_append, spell_trace] at hsites
  exact hsites

/-- The places of the steps over a text that read a sigil in code are those of its sigils in code. -/
theorem mem_sigilPlaces_trace {cs : List Char} {n : Nat} :
    n ∈ sigilPlaces 0 (trace .start cs) ↔ cs[n]? = some sigil ∧ Scan.CodeAt cs n := by
  have hchar {s : Step} (h : StepAt (trace .start cs) n s) : s.text.head? = cs[n]? := by
    obtain ⟨front, back, hcut, rfl⟩ := h
    obtain ⟨c, more, -, htext, -⟩ :=
      exists_of_mem_trace (hcut ▸ List.mem_append_right front List.mem_cons_self)
    have hcs : cs = spell front ++ c :: (more ++ spell back) := by
      rw [← spell_trace .start cs, hcut, spell_append, spell_cons, htext, List.cons_append]
    rw [hcs, htext]
    simp
  rw [mem_sigilPlaces]
  constructor
  · rintro ⟨m, s, hm, hs, hsigil⟩
    rw [Nat.zero_add] at hm
    subst hm
    simp only [Step.isCodeChar, Bool.and_eq_true, decide_eq_true_eq] at hsigil
    exact ⟨hchar hs ▸ hsigil.2, s, hs, hsigil.1⟩
  · rintro ⟨hsigil, s, hs, hcode⟩
    exact ⟨n, s, (Nat.zero_add n).symm, hs, by simp [Step.isCodeChar, hcode, hchar hs, hsigil]⟩

/-! ## The loop that counts lines -/

namespace Cursor

/-- The line is the one that the text ends in. -/
structure Line.Ends (l : Line) (front : List Char) : Prop where
  number : l.number = 1 + front.count '\n'
  start : l.start + (lastLine front).length = front.length

theorem Line.Ends.concat {l : Line} {front : List Char} (h : l.Ends front) (c : Char) :
    (if c = '\n' then ⟨l.number + 1, front.length + 1⟩ else l : Line).Ends (front ++ [c]) := by
  obtain ⟨hnumber, hstart⟩ := h
  split
  · rename_i hc
    constructor
    · simp [hnumber, hc, Nat.add_assoc]
    · simp [lastLine_concat, hc]
  · rename_i hc
    constructor
    · simp [hnumber, hc]
    · simp only [lastLine_concat, if_neg hc, List.length_append, List.length_singleton]
      omega

theorem Line.Ends.behind {l : Line} {front : List Char} (h : l.Ends front) (cs : List Char) :
    (l.behind front.length cs).Ends (front ++ cs) := by
  induction cs generalizing l front with
  | nil => rwa [List.append_nil]
  | cons c cs ih =>
    have hnext := ih (h.concat c)
    rw [List.append_assoc, List.singleton_append, List.length_append, List.length_singleton] at hnext
    rw [Line.behind]
    split at hnext <;> simp_all

theorem sitesAt_eq {l : Line} {front : List Char} (h : l.Ends front) (k : Context) (c : Char)
    (cs : List Char) : sitesAt (front ++ c :: cs) k l front.length =
      .ok (if (firstStep k c cs).isCodeChar sigil then [Site.atEnd front] else []) := by
  have hslice : slice (front ++ c :: cs) 0 front.length = .ok front := by simp [slice]
  have hsub : subtract front.length l.start = .ok (lastLine front).length := by
    rw [subtract_eq (by have := h.start; omega)]
    exact congrArg Except.ok (by have := h.start; omega)
  rw [sitesAt, charAt_eq, ok_bind, isCodeChar_firstStep]
  split
  · rw [hslice, ok_bind, hsub, ok_bind, h.number, Site.atEnd, Nat.add_comm 1 (lastLine front).length]
    rfl
  · rfl

theorem sitesFrom_eq {l : Line} {front : List Char} (h : l.Ends front) (k : Context) (cs : List Char)
    (found : List Site) : sitesFrom (front ++ cs) k l found front.length =
      .ok (found ++ Site.ofSteps (Site.atEnd front) (trace k cs)) := by
  induction k, cs using step_induction generalizing front l found with
  | nil k =>
    rw [sitesFrom]
    simp [trace, Site.ofSteps]
  | cons k c cs ih =>
    have hnext := ih (h.behind (firstStep k c cs).text)
      (found ++ if (firstStep k c cs).isCodeChar sigil then [Site.atEnd front] else [])
    have hslice := slice_eq front (firstStep k c cs).text (behindStep k c cs)
    rw [firstStep_append] at hslice
    rw [← append_firstStep, List.length_append] at hnext
    rw [sitesFrom, if_pos (by simp), sitesAt_eq h, ok_bind, advance_eq]
    simp only [ok_bind, hslice, moveOn_eq (firstStep_bound front k c cs)]
    rw [hnext, trace_cons, Site.ofSteps, Site.foldl_after, List.append_assoc]
    split <;> rfl

/-- The loop finds the sites with no fault. -/
theorem leftoverSites_eq (cs : List Char) : leftoverSites cs = .ok (Florin.leftoverSites cs) :=
  have hends : Line.Ends ⟨1, 0⟩ [] := ⟨rfl, rfl⟩
  sitesFrom_eq hends .start cs []

end Cursor

/-- The sites of a text are those of its sigils in code, each told by the text before it, in the order of
the text and with offsets that increase; and the loop that counts lines finds them with no fault. -/
theorem leftoverSites_exact (text : String) : ∃ places : List Nat,
    leftoverSites text.toList = places.map (fun n => Site.atEnd (text.toList.take n)) ∧
      places.Pairwise (· < ·) ∧
      (∀ n, n ∈ places ↔ text.toList[n]? = some sigil ∧ Scan.CodeAt text.toList n) ∧
      (leftoverSites text.toList).Pairwise (fun p q => p.offset < q.offset) ∧
      Cursor.leftoverSites text.toList = .ok (leftoverSites text.toList) := by
  have hsites := leftoverSites_eq text.toList
  have hordered := pairwise_sigilPlaces 0 (trace .start text.toList)
  have hmem (n : Nat) := @mem_sigilPlaces_trace text.toList n
  refine ⟨_, hsites, hordered, hmem, ?_, Cursor.leftoverSites_eq _⟩
  rw [hsites, List.pairwise_map]
  refine hordered.imp_of_mem fun {m n} _ hn hlt => ?_
  obtain ⟨hlength, -⟩ := List.getElem?_eq_some_iff.mp ((hmem n).mp hn).1
  have hcut : text.toList.take n = text.toList.take m ++ (text.toList.drop m).take (n - m) := by
    rw [← List.take_add, Nat.add_sub_cancel' hlt.le]
  rw [hcut]
  refine Site.offset_atEnd_lt fun hnil => ?_
  have hzero := congrArg List.length hnil
  simp only [List.length_take, List.length_drop, List.length_nil] at hzero
  omega

end Florin
