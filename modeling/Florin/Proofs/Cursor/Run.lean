import Florin.Proofs.Cursor.Forms
import Florin.Proofs.Scanning

/-! # Scans by index are never at fault

Every round of every loop moves on within its slice, every nested scan has a shorter text, no count falls
below zero, and an output is cut only at a word `async` that was put out before. So a scan by index always
ends, with the output of the scan over the text.
-/
namespace Florin.Cursor
open Text Lexical

/-- What is pending in a scan is a word `async` in its output. -/
def Pends (σ : Scan.State) : Prop := ∀ offset ∈ σ.pending, ∃ front gap,
  offset = byteLength front ∧ σ.done.output = front ++ (asyncWord ++ gap)

theorem takeBack_eq {σ : Scan.State} (h : Pends σ) : takeBack σ.done.output σ.pending = .ok σ.cut := by
  cases hp : σ.pending with
  | none => simp [takeBack, Scan.State.cut, hp]
  | some offset =>
    obtain ⟨front, gap, rfl, hout⟩ := h offset hp
    have htake := takeBytes_append front (asyncWord ++ gap)
    have hle : byteLength front ≤ byteLength (front ++ (asyncWord ++ gap)) := by
      rw [byteLength_append]
      omega
    rw [takeBack, cutAt, Scan.State.cut, hp, hout]
    simp only [htake, List.drop_left]
    rw [if_pos ⟨hle, trivial, List.prefix_append _ _⟩]
    rfl

theorem joinedAt_eq (front cs : List Char) :
    joinedAt (front ++ cs) front.length = .ok (front.getLast?.any Identifier.isContinue) := by
  rcases List.eq_nil_or_concat' front with rfl | ⟨init, c, rfl⟩
  · rfl
  · have hchar := charAt_eq init c cs
    rw [joinedAt, if_pos (by simp), subtract_eq (by simp), ok_bind]
    simp [hchar]

theorem wordEnd?_eq (k : Context) (front : List Char) (c : Char) (cs : List Char) :
    wordEnd? (front ++ c :: cs) k front.length =
      .ok ((if k.isCode then Scan.word? (front.getLast?.any Identifier.isContinue) (c :: cs) else none).map
        fun r => front.length + r.1.length) := by
  rw [wordEnd?]
  split
  · have hend := skipWhile_eq (front ++ [c]) Scan.isWordChar cs
    rw [List.append_assoc, List.singleton_append, List.length_append, List.length_singleton] at hend
    rw [joinedAt_eq, ok_bind, charAt_eq, Scan.word?]
    cases front.getLast?.any Identifier.isContinue with
    | true => rfl
    | false =>
      by_cases hstart : Identifier.isStart c = true
      · simp [hstart, hend, Nat.add_assoc, Nat.add_comm 1]
      · simp [hstart]
  · rfl

section Rounds
variable (w : Keyword) (front : List Char) {cs : List Char} (k : Context) (pending : Option Nat)
  (output : List Char)

theorem scan_end : scan w front k pending output front.length = .ok output := by
  rw [scan]
  simp

theorem scan_step {c : Char} (hs : ¬(k.isCode && decide (c = sigil)) = true)
    (hw : (if k.isCode then Scan.word? (front.getLast?.any Identifier.isContinue) (c :: cs) else none) = none) :
    scan w (front ++ c :: cs) k pending output front.length =
      scan w (front ++ c :: cs) (firstStep k c cs).after (if k.isCode && isBlank c then pending else none)
        (output ++ (firstStep k c cs).text) (front.length + (firstStep k c cs).text.length) := by
  have hslice := slice_eq front (firstStep k c cs).text (behindStep k c cs)
  rw [firstStep_append] at hslice
  rw [scan, if_pos (by simp), charAt_eq, ok_bind, if_neg hs, wordEnd?_eq, hw]
  simp only [Option.map_none, ok_bind, advance_eq, hslice, moveOn_eq (firstStep_bound front k c cs)]

theorem scan_word {c : Char} {word after : List Char} (hs : ¬(k.isCode && decide (c = sigil)) = true)
    (hw : (if k.isCode then Scan.word? (front.getLast?.any Identifier.isContinue) (c :: cs) else none) =
      some (word, after)) :
    scan w (front ++ c :: cs) k pending output front.length =
      scan w (front ++ c :: cs) k (if word = asyncWord then some (byteLength output) else none)
        (output ++ word) (front.length + word.length) := by
  obtain ⟨happ, -⟩ := Scan.word?_append (Option.ite_none_right_eq_some.mp hw).2
  have hpos : 0 < word.length := by
    rw [(Scan.word?_spec (Option.ite_none_right_eq_some.mp hw).2).2.2.1]
    simp
  have hslice := slice_eq front word after
  rw [← happ] at hslice
  have hbound : front.length < front.length + word.length ∧
      front.length + word.length ≤ (front ++ c :: cs).length := by
    rw [happ]
    simp only [List.length_append]
    omega
  rw [scan, if_pos (by simp), charAt_eq, ok_bind, if_neg hs, wordEnd?_eq, hw]
  simp only [Option.map_some, ok_bind, hslice, moveOn_eq hbound]

theorem scan_sigil (hk : k.isCode = true) (hr : Shorthand.read? cs = none) :
    scan w (front ++ sigil :: cs) k pending output front.length =
      scan w (front ++ sigil :: cs) k none (output ++ [sigil]) (front.length + 1) := by
  have hbound : front.length < front.length + 1 ∧ front.length + 1 ≤ (front ++ sigil :: cs).length := by simp
  rw [scan, if_pos (by simp), charAt_eq, ok_bind, if_pos (by simp [hk]), formAt?_eq, hr]
  simp only [Option.map_none, ok_bind, moveOn_eq hbound]

theorem scan_shorthand (hk : k.isCode = true) {s : Shorthand} {after kept params body : List Char}
    (hr : Shorthand.read? cs = some (s, after)) (hkept : takeBack output pending = .ok kept)
    (hparams : scan w s.params .start none [] 0 = .ok params)
    (hbody : scan w s.body.text .start none [] 0 = .ok body) :
    scan w (front ++ sigil :: cs) k pending output front.length =
      scan w (front ++ sigil :: cs) k none (kept ++ s.standard w pending.isSome params body)
        (front.length + 1 + s.span.length) := by
  have hspan := congrArg List.length (Shorthand.read?_append hr)
  rw [List.length_append] at hspan
  have hbound : front.length < front.length + 1 + s.span.length ∧
      front.length + 1 + s.span.length ≤ (front ++ sigil :: cs).length := by
    simp only [List.length_append, List.length_cons]
    omega
  have hps : s.params.length < (front ++ sigil :: cs).length := by
    have hle := s.params_length_le_span
    omega
  have hbs : s.body.text.length < (front ++ sigil :: cs).length := by
    have hle := s.body_length_le_span
    omega
  rw [scan, if_pos (by simp), charAt_eq, ok_bind, if_pos (by simp [hk]), formAt?_eq, hr]
  simp only [Option.map_some, ok_bind, hkept, nested_eq hps, hparams, nested_eq hbs, hbody, moveOn_eq hbound]
  rfl

end Rounds

/-! ## Whole scans -/

theorem joined_append {front text : List Char} (h : text ≠ []) :
    (front ++ text).getLast?.any Identifier.isContinue = text.getLast?.any Identifier.isContinue := by
  rw [List.getLast?_append_of_ne_nil _ h]

/-- What is pending stays so behind text that is copied behind a blank in code. -/
theorem Pends.copyStep {σ : Scan.State} (h : Pends σ) (c : Char) (text : List Char) (k : Context) :
    Pends (σ.copyStep c text k) := by
  intro offset hoffset
  have hne : σ.pendingAfter c ≠ none := by
    intro hnone
    simp [Scan.State.copyStep, Scan.State.copy, hnone] at hoffset
  obtain ⟨-, hsame⟩ := Scan.pendingAfter_of_ne_none hne
  obtain ⟨front, gap, rfl, hout⟩ := h offset (hsame ▸ hoffset)
  exact ⟨front, gap ++ text, rfl, by simp [Scan.State.copyStep, Scan.State.copy, Scan.append_eq, hout]⟩

theorem Pends.copyWord (σ : Scan.State) (word : List Char) : Pends (σ.copyWord word) := by
  intro offset hoffset
  simp only [Scan.State.copyWord, Scan.State.copy, Option.mem_def, Option.ite_none_right_eq_some] at hoffset
  obtain ⟨rfl, hoffset⟩ := hoffset
  obtain rfl := Option.some.inj hoffset
  exact ⟨σ.done.output, [], rfl, rfl⟩

/-- A scan by index puts out what the scan of the text behind the index puts out. -/
theorem scan_eq (w : Keyword) {place : Nat} {σ : Scan.State} {cs front : List Char}
    (hjoined : σ.joined = front.getLast?.any Identifier.isContinue) (hpends : Pends σ) :
    scan w (front ++ cs) σ.context σ.pending σ.done.output front.length =
      .ok (Scan.run w place σ cs).output := by
  fun_induction Scan.run w place σ cs generalizing front with
  | case1 place σ =>
    rw [List.append_nil]
    exact scan_end w front _ _ _
  | case2 place σ c rest hs s after hr ihParams ihBody ihNext =>
    simp only [Bool.and_eq_true, decide_eq_true_eq] at hs
    obtain ⟨hcode, rfl⟩ := hs
    have hinitial : Pends .initial := by simp [Pends, Scan.State.initial]
    have hparams : scan w ([] ++ s.params) .start none [] 0 = _ := ihParams rfl hinitial
    have hbody : scan w ([] ++ s.body.text) .start none [] 0 = _ := ihBody rfl hinitial
    have hnext : scan w (front ++ sigil :: s.span ++ after) σ.context none _ (front ++ sigil :: s.span).length =
        _ := ihNext (by
      rw [joined_append (List.cons_ne_nil _ _), List.getLast?_cons_of_ne_nil (Shorthand.read?_spans hr).span_ne_nil]
      rfl) (by simp [Pends, Scan.State.emit])
    -- The scan by index goes on in the same text, behind the stretch of the shorthand.
    have hsource : front ++ sigil :: s.span ++ after = front ++ sigil :: rest := by
      rw [List.append_assoc, List.cons_append, Shorthand.read?_append hr]
    have hlength : (front ++ sigil :: s.span).length = front.length + 1 + s.span.length := by
      simp only [List.length_append, List.length_cons]
      omega
    rw [hsource, hlength] at hnext
    rw [scan_shorthand w front _ _ _ hcode hr (takeBack_eq hpends) hparams hbody]
    exact hnext
  | case3 place σ c rest hs hr ih =>
    simp only [Bool.and_eq_true, decide_eq_true_eq] at hs
    obtain ⟨hcode, rfl⟩ := hs
    have hnext : scan w (front ++ [sigil] ++ rest) σ.context none _ (front ++ [sigil]).length = _ :=
      ih (by rw [joined_append (by simp)]; rfl) (by simp [Pends, Scan.State.copySigil])
    rw [List.append_assoc, List.singleton_append, List.length_append, List.length_singleton] at hnext
    rw [scan_sigil w front _ _ _ hcode hr]
    exact hnext
  | case4 place σ c rest hs word after hw ih =>
    obtain ⟨happ, hlast⟩ := Scan.word?_append (Option.ite_none_right_eq_some.mp hw).2
    have hne : word ≠ [] := by
      rintro rfl
      simp at hlast
    have hnext : scan w (front ++ word ++ after) σ.context _ _ (front ++ word).length = _ :=
      ih (by rw [joined_append hne]; rfl) (.copyWord σ word)
    rw [List.append_assoc, ← happ, List.length_append] at hnext
    rw [hjoined] at hw
    rw [scan_word w front _ _ _ hs hw]
    exact hnext
  | case5 place σ c hs hw =>
    rw [hjoined] at hw
    have hend := scan_end w (front ++ [c]) (σ.context.step c none).1 (σ.pendingAfter c) (σ.done.output ++ [c])
    rw [List.length_append] at hend
    rw [scan_step w front _ _ _ hs hw, firstStep_nil]
    exact hend
  | case6 place σ c hs d more hw hwide ih =>
    have hnext : scan w (front ++ [c, d] ++ more) _ _ _ (front ++ [c, d]).length = _ :=
      ih (by rw [joined_append (by simp)]; rfl) (hpends.copyStep c _ _)
    rw [List.append_assoc, List.length_append] at hnext
    rw [hjoined] at hw
    rw [scan_step w front _ _ _ hs hw, firstStep_of_wide _ _ _ hwide]
    exact hnext
  | case7 place σ c hs d more hw hwide ih =>
    have hnext : scan w (front ++ [c] ++ d :: more) _ _ _ (front ++ [c]).length = _ :=
      ih (by rw [joined_append (by simp)]; rfl) (hpends.copyStep c _ _)
    rw [List.append_assoc, List.length_append] at hnext
    rw [hjoined] at hw
    rw [scan_step w front _ _ _ hs hw, firstStep_of_narrow _ _ _ (by simpa using hwide)]
    exact hnext

theorem expand_eq (w : Keyword) (cs : List Char) : expand w cs = .ok (Florin.expand w cs) := by
  have hscan : (Scan.ofText w cs).output = Florin.expand w cs := congrArg Scan.output (Scan.ofText_eq w cs)
  rw [← hscan, expand, Scan.ofText]
  split
  · have hpends : Pends .initial := by simp [Pends, Scan.State.initial]
    have heq : scan w ([] ++ cs) .start none [] 0 = .ok (Scan.run w 0 .initial cs).output :=
      scan_eq w rfl hpends
    exact heq
  · rfl

theorem exists_drop {cs : List Char} {i : Nat} {c : Char} (h : cs[i]? = some c) :
    ∃ front rest, cs = front ++ c :: rest ∧ i = front.length := by
  obtain ⟨hi, rfl⟩ := List.getElem?_eq_some_iff.mp h
  refine ⟨cs.take i, cs.drop (i + 1), ?_, ?_⟩
  · rw [← List.drop_eq_getElem_cons hi, List.take_append_drop]
  · rw [List.length_take]
    omega

/-- The loops over slices never fail and always end: a step reads at least one character and none past the
end, a shorthand that is recognised ends behind its sigil and within the slice, its parameters and its body
are shorter than the slice, and the expansion of any text comes out with no fault, which all loops, slices,
nested scans, depths and cuts of the output may raise. -/
theorem never_at_fault :
    (∀ (k : Context) (cs : List Char) (i : Nat), i < cs.length → ∃ after width,
      advance cs k i = .ok (after, width) ∧ 1 ≤ width ∧ width ≤ cs.length - i) ∧
    (∀ (cs : List Char) (i : Nat), cs[i]? = some sigil → ∃ form?, formAt? cs i = .ok form? ∧
      ∀ form ∈ form?, i < form.stop ∧ form.stop ≤ cs.length ∧ form.params.length < cs.length ∧
        form.body.text.length < cs.length) ∧
    ∀ (w : Keyword) (source : String), expand w source.toList = .ok (expandText w source).toList := by
  refine ⟨fun k cs i hi => ?_, fun cs i hi => ?_, fun w source => ?_⟩
  · obtain ⟨c, hc⟩ : ∃ c, cs[i]? = some c := ⟨_, List.getElem?_eq_getElem hi⟩
    obtain ⟨front, rest, rfl, rfl⟩ := exists_drop hc
    have hbound := firstStep_bound front k c rest
    exact ⟨_, _, advance_eq front k c rest, by omega, by omega⟩
  · obtain ⟨front, rest, rfl, rfl⟩ := exists_drop hi
    refine ⟨_, formAt?_eq front rest, fun form hform => ?_⟩
    obtain ⟨⟨s, after⟩, hread, rfl⟩ := Option.map_eq_some_iff.mp hform
    have hspan := congrArg List.length (Shorthand.read?_append hread)
    have hparams := s.params_length_le_span
    have hbody := s.body_length_le_span
    simp only [List.length_append, List.length_cons] at hspan ⊢
    omega
  · rw [expand_eq, expandText, String.toList_ofList]

/-- A text that is cut short behind a backslash, and a shorthand that runs to its end. -/
theorem never_at_fault_of_cut_short :
    (15 < "async ƒ f(a) 'b\\".toList.length ∧ ∃ after width,
      advance "async ƒ f(a) 'b\\".toList ⟨.singleQuoted, []⟩ 15 = .ok (after, width) ∧ 1 ≤ width ∧
        width ≤ "async ƒ f(a) 'b\\".toList.length - 15) ∧
    ("async ƒ f(a) 'b\\".toList[6]? = some sigil ∧ ∃ form?,
      formAt? "async ƒ f(a) 'b\\".toList 6 = .ok form? ∧
      ∀ form ∈ form?, 6 < form.stop ∧ form.stop ≤ "async ƒ f(a) 'b\\".toList.length ∧
        form.params.length < "async ƒ f(a) 'b\\".toList.length ∧
        form.body.text.length < "async ƒ f(a) 'b\\".toList.length) := by
  have hlt : 15 < "async ƒ f(a) 'b\\".toList.length := by decide
  have hsigil : "async ƒ f(a) 'b\\".toList[6]? = some sigil := by decide
  exact ⟨⟨hlt, never_at_fault.1 _ _ _ hlt⟩, hsigil, never_at_fault.2.1 _ _ hsigil⟩

end Florin.Cursor
