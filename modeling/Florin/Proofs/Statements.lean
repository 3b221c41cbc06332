import Florin.Proofs.FixedPoint
import Florin.Proofs.NestedShorthand

/-! # One statement after the other

A semicolon behind a well-formed text separates it from all that follows. Whatever looks ahead in the
text, for the closer of a bracket, for the end of an expression or for a sigil behind the word `async`,
finds the same with the semicolon and any text behind it, so the two sides are expanded on their own.
-/
namespace Florin
open Text Lexical

/-! ## Reading ahead -/

theorem dropWhile_append_stop {p : Char → Bool} {c : Char} (h : p c = false) (xs ys : List Char) :
    (xs ++ c :: ys).dropWhile p = xs.dropWhile p ++ c :: ys := by
  rw [List.dropWhile_append]
  split
  · rename_i hxs
    rw [List.isEmpty_iff.mp hxs, List.nil_append, List.dropWhile_cons_of_neg (by simp [h])]
  · rfl

theorem takeWhile_append_stop {p : Char → Bool} {c : Char} (h : p c = false) (xs ys : List Char) :
    (xs ++ c :: ys).takeWhile p = xs.takeWhile p := by
  rw [List.takeWhile_append]
  split
  · rename_i hxs
    rw [List.takeWhile_cons_of_neg (by simp [h]), List.append_nil]
    exact ((List.takeWhile_prefix p).eq_of_length hxs).symm
  · rfl

theorem prefix_of_append_stop {word xs ys : List Char} {c : Char} (hc : c ∉ word)
    (h : word <+: xs ++ c :: ys) : word <+: xs := by
  rcases List.prefix_or_prefix_of_prefix h (List.prefix_append xs (c :: ys)) with hword | ⟨more, rfl⟩
  · exact hword
  · cases more with
    | nil => exact ⟨[], by simp⟩
    | cons d more =>
      obtain ⟨rfl, -⟩ := List.cons_prefix_cons.mp ((List.prefix_append_right_inj xs).mp h)
      simp at hc

theorem textBefore_append_append (cs rest ys : List Char) :
    textBefore (cs ++ ys) (rest ++ ys) = textBefore cs rest := by
  rw [textBefore, textBefore, List.length_append, List.length_append, Nat.add_sub_add_right,
    List.take_append_of_le_length (Nat.sub_le _ _)]

namespace Stretch

def followedBy (s : Stretch) (ys : List Char) : Stretch := ⟨s.source ++ ys, s.text, s.rest ++ ys⟩

theorem after_followedBy {s : Stretch} (h : s.Fits) (rest ys : List Char) :
    (s.followedBy ys).after (rest ++ ys) = s.after rest := by
  have hle : s.text.length ≤ s.source.length := by
    obtain ⟨back, hs, -⟩ := h
    rw [hs, List.length_append]
    omega
  rw [after, after, followedBy, List.drop_append_of_le_length hle, textBefore_append_append]

end Stretch

theorem skipBlanks_append_semicolon (cs ys : List Char) :
    skipBlanks (cs ++ ';' :: ys) = skipBlanks cs ++ ';' :: ys := dropWhile_append_stop (by decide) cs ys

theorem Identifier.read?_append_semicolon (cs ys : List Char) : Identifier.read? (cs ++ ';' :: ys) =
    (Identifier.read? cs).map fun r => (r.1, r.2 ++ ';' :: ys) := by
  have hstop : Identifier.isContinue ';' = false := by decide
  cases cs with
  | nil => simp [Identifier.read?, (by decide : Identifier.isStart ';' = false)]
  | cons c cs =>
    simp only [List.cons_append, Identifier.read?, takeWhile_append_stop hstop,
      dropWhile_append_stop hstop]
    split <;> rfl

namespace Shorthand
variable {stack : List Bracket} {cs : List Char}

theorem readStar_append_semicolon (cs ys : List Char) :
    readStar (cs ++ ';' :: ys) = ((readStar cs).1, (readStar cs).2 ++ ';' :: ys) := by
  rw [readStar, readStar, skipBlanks_append_semicolon]
  cases skipBlanks cs with
  | nil => rfl
  | cons c rest =>
    by_cases hc : c = '*'
    · subst hc
      exact congrArg (true, ·) (skipBlanks_append_semicolon rest ys)
    · simp [hc]

theorem readName_append_semicolon (cs ys : List Char) :
    readName (cs ++ ';' :: ys) = ((readName cs).1, (readName cs).2 ++ ';' :: ys) := by
  rw [readName, readName, Identifier.read?_append_semicolon]
  cases Identifier.read? cs with
  | none => rfl
  | some r => exact congrArg (some r.1, ·) (skipBlanks_append_semicolon r.2 ys)

theorem readParams?_append_semicolon (h : Closes .start stack cs) (ys : List Char) :
    readParams? (cs ++ ';' :: ys) = (readParams? cs).map (·.followedBy (';' :: ys)) := by
  cases cs with
  | nil => rfl
  | cons c inside =>
    by_cases hc : c = '('
    · subst hc
      obtain ⟨inner, rest, he, -⟩ := (Closes.opener_iff (b := .paren).mp h).enclosed?
      simp only [List.cons_append, readParams?, he, Bracket.enclosed?_append_right he,
        Option.map_some, skipBlanks_append_semicolon]
      rfl
    · simp [readParams?, hc, Stretch.followedBy]

theorem readBody?_of_head (h : cs.head? ≠ some '{') (generator : Bool) : readBody? generator cs =
    if generator || (expression cs).1.isEmpty then none
    else some (.expression (expression cs).1, ⟨cs, (expression cs).1, (expression cs).2⟩) := by
  unfold readBody?
  split
  · simp at h
  · rfl

theorem readBody?_append_semicolon (h : Closes .start stack cs) (generator : Bool) (ys : List Char) :
    readBody? generator (cs ++ ';' :: ys) =
      (readBody? generator cs).map fun r => (r.1, r.2.followedBy (';' :: ys)) := by
  by_cases hbrace : cs.head? = some '{'
  · obtain ⟨inside, rfl⟩ := List.head?_eq_some_iff.mp hbrace
    obtain ⟨inner, rest, he, -⟩ := (Closes.opener_iff (b := .curly).mp h).enclosed?
    simp only [List.cons_append, readBody?, he, Bracket.enclosed?_append_right he, Option.map_some]
    rfl
  · have hbrace' : (cs ++ ';' :: ys).head? ≠ some '{' := by
      cases cs with
      | nil => simp
      | cons c cs => exact hbrace
    rw [readBody?_of_head hbrace, readBody?_of_head hbrace', h.expression_append]
    cases generator || (expression cs).1.isEmpty <;> rfl

/-- A shorthand that starts before the semicolon ends before it, and none does because of what follows. -/
theorem read?_append_semicolon (h : Closes .start stack cs) (ys : List Char) :
    read? (cs ++ ';' :: ys) = (read? cs).map fun r => (r.1, r.2 ++ ';' :: ys) := by
  have hname := readName_closes_iff.mpr (readStar_closes_iff.mpr h)
  simp only [read?, readStar_append_semicolon, readName_append_semicolon,
    readParams?_append_semicolon hname]
  obtain ⟨p, hp, -, hrest⟩ := readParams?_closes hname
  have hpfits := readParams?_fits hp
  have hbody := readBody?_append_semicolon hrest (readStar cs).1 ys
  simp only [hp, Option.map_some, Option.bind_some]
  rw [Stretch.followedBy, hbody]
  cases hb : readBody? (readStar cs).1 p.rest with
  | none => rfl
  | some r =>
    obtain ⟨body, b⟩ := r
    have hbfits := readBody?_fits hb
    have hlead := textBefore_append_append cs p.source (';' :: ys)
    have hmiddle := Stretch.after_followedBy hpfits.1 b.source (';' :: ys)
    have hclose := Stretch.after_followedBy hbfits.1 b.rest (';' :: ys)
    simp only [Stretch.followedBy] at hmiddle hclose
    simp only [Option.map_some, Stretch.followedBy, hlead, hmiddle, hclose]

end Shorthand

namespace Opening
variable {stack : List Bracket} {cs : List Char} {joined : Bool}

def followedBy (o : Opening) (ys : List Char) : Opening := { o with rest := o.rest ++ ys }

theorem plain?_append_semicolon (h : Closes .start stack cs) (ys : List Char) :
    plain? (cs ++ ';' :: ys) = (plain? cs).map (·.followedBy (';' :: ys)) := by
  cases cs with
  | nil => simp [plain?, (by decide : ';' ≠ sigil)]
  | cons c cs =>
    rw [List.cons_append, plain?, plain?]
    split
    · rename_i hc
      rw [hc, Closes.plain_cons_iff (by decide)] at h
      rw [Shorthand.read?_append_semicolon h, Option.map_map, Option.map_map]
      rfl
    · rfl

theorem async?_append_semicolon (h : Closes .start stack cs) (ys : List Char) :
    async? (cs ++ ';' :: ys) = (async? cs).map (·.followedBy (';' :: ys)) := by
  by_cases hword : asyncWord <+: cs
  · obtain ⟨cs, rfl⟩ := hword
    rw [Closes.plain_append_iff (by decide), ← Closes.skipBlanks_iff] at h
    rw [List.append_assoc, async?_of_word, async?_of_word, skipBlanks_append_semicolon,
      plain?_append_semicolon h, takeWhile_append_stop (by decide), Option.map_map, Option.map_map]
    rfl
  · rw [async?_of_not_word hword,
      async?_of_not_word fun h => hword (prefix_of_append_stop (by decide) h)]
    rfl

/-- What opens before the semicolon is the same, whatever follows it. -/
theorem read?_append_semicolon (h : Closes .start stack cs) (joined : Bool) (ys : List Char) :
    read? joined (cs ++ ';' :: ys) = (read? joined cs).map (·.followedBy (';' :: ys)) := by
  rw [read?, read?, plain?_append_semicolon h, async?_append_semicolon h]
  cases plain? cs <;> cases joined <;> rfl

theorem read?_append_semicolon_eq_none {k : Context} (hk : k.Settled) (h : Closes k stack cs)
    (hopen : (if k.isCode then read? joined cs else none) = none) (ys : List Char) :
    (if k.isCode then read? joined (cs ++ ';' :: ys) else none) = none := by
  split
  · rename_i hcode
    obtain rfl := hk hcode
    rw [if_pos hcode] at hopen
    rw [read?_append_semicolon h, hopen]
    rfl
  · rfl

end Opening

namespace Outline

/-- Behind a semicolon the reading starts anew. -/
theorem render_read_semicolon (joined : Bool) (ys : List Char) (w : Keyword) :
    (read .start joined (';' :: ys)).render w = ';' :: (read .start false ys).render w := by
  have hopen : (if Context.start.isCode then Opening.read? joined (';' :: ys) else none) = none := by
    simp [Opening.read?, Opening.plain?, Opening.async?, (by decide : ';' ≠ sigil)]
  have hread : (read .start joined (';' :: ys)).render w = ';' :: _ :=
    render_read_narrow hopen (by decide) fun d _ => by rw [Context.step_semicolon]
  rwa [Context.step_semicolon] at hread

/-- A text that closes its brackets is read the same in front of a semicolon and whatever follows it,
and what follows is read as if it stood alone. -/
theorem render_read_append_semicolon {k : Context} (hk : k.Settled) (joined : Bool) {cs : List Char}
    {stack : List Bracket} (h : Closes k stack cs) (ys : List Char) (w : Keyword) :
    (read k joined (cs ++ ';' :: ys)).render w =
      (read k joined cs).render w ++ ';' :: (read .start false ys).render w := by
  induction k, joined, cs using read_induction generalizing stack with
  | nil k joined =>
    obtain rfl := hk h.code
    rw [read_nil]
    exact render_read_semicolon joined ys w
  | opening k joined cs o hcode ho ihParams ihBody ihRest =>
    obtain rfl := hk hcode
    have hopen := Opening.read?_append_semicolon h joined ys
    rw [ho, Option.map_some] at hopen
    have hrest := ihRest hk (Opening.read?_closed h ho).rest
    rw [read_of_opening ho, read_of_opening hopen, render, render, List.append_assoc, ← hrest]
    rfl
  | leftover k joined cs hcode hread ih =>
    obtain rfl := hk hcode
    have hopen := Opening.read?_append_semicolon_eq_none hk h (opens_none hread (by simp)) ys
    rw [Closes.plain_cons_iff (by decide)] at h
    rw [List.cons_append] at hopen ⊢
    rw [hread, read_sigil hopen, render, render, ih hk h]
    rfl
  | step k joined c cs hs hread ih =>
    have hopen := Opening.read?_append_semicolon_eq_none hk h (opens_none hread (by simp)) ys
    by_cases hcs : cs = []
    · -- The last character makes no pair with the semicolon, as it leads back into code.
      subst hcs
      have hcode : (k.step c none).1.isCode = true := h.code
      have hstep : k.step c (some ';') = (.start, false) := by
        rw [Context.step_some_of_isCode hcode (by simp), Context.step_settled hk c none hcode]
      have hnext : (read k joined (c :: ';' :: ys)).render w = c :: _ :=
        render_read_narrow hopen hs fun d hd => by
          obtain rfl := Option.some.inj hd
          rw [hstep]
      rw [List.head?_cons, hstep, render_read_semicolon] at hnext
      have hlast : (read k joined [c]).render w = [c] := by
        rw [hread, render, firstStep_nil, behindStep]
        simp [read_nil, render]
      rw [hlast]
      exact hnext
    · obtain ⟨stack', -, hrest⟩ := (Closes.iff_of_trace_eq (trace_cons k c cs)).mp h
      obtain ⟨hstep, hbehind⟩ := firstStep_append_of_ne_nil k c hcs (';' :: ys)
      rw [List.cons_append] at hopen ⊢
      rw [render_read_step hopen hs, hstep, hbehind, ih (Context.step_settled hk c _) hrest, hread, render,
        List.append_assoc]

end Outline

/-- A well-formed text and whatever follows it behind a semicolon are expanded each on its own: neither
changes the expansion of the other. -/
theorem expandText_append_semicolon (w : Keyword) (a b : String) (h : WellFormed a.toList) :
    expandText w (a ++ ";" ++ b) = expandText w (a ++ ";") ++ expandText w b := by
  have hread (ys : List Char) : expand w (a.toList ++ ';' :: ys) =
      expand w a.toList ++ ';' :: expand w ys := by
    simp only [expand_eq_render]
    exact Outline.render_read_append_semicolon Context.start_settled false h ys w
  have hsplit : (a ++ ";" ++ b).toList = a.toList ++ ';' :: b.toList := by simp
  have hfront : (a ++ ";").toList = a.toList ++ [';'] := by simp
  have hempty : expand w [] = [] := rfl
  rw [expandText, expandText, expandText, ← String.ofList_append, hsplit, hfront, hread, hread, hempty]
  simp

/-- A leftover sigil in the first text; in the second one a brace and a literal stay open. -/
theorem expandText_append_semicolon_of_open :
    expandText .const ("\x7bƒ f(a = [1]) a + ƒ\x7d async" ++ ";" ++ ") async ƒ g \x7bx, ƒ(b) 'c") =
      expandText .const ("\x7bƒ f(a = [1]) a + ƒ\x7d async" ++ ";") ++ expandText .const ") async ƒ g \x7bx, ƒ(b) 'c" :=
  expandText_append_semicolon .const _ _ (by decide +kernel)

end Florin
