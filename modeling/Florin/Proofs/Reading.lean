import Florin.Proofs.Outlines
import Florin.Proofs.Printing

/-! # Reading printed text

A printed text is read as it is, and a printed shorthand as the shorthand that it shows, whatever
follows it.
-/
namespace Florin
open Text Lexical

theorem Opening.async?_of_word (cs : List Char) : async? (asyncWord ++ cs) =
    (plain? (skipBlanks cs)).map fun o => { o with gap := some (cs.takeWhile isBlank) } := rfl

theorem Opening.async?_of_not_word {cs : List Char} (h : ¬asyncWord <+: cs) : async? cs = none := by
  unfold async?
  split
  · rename_i cs
    exact absurd ⟨cs, rfl⟩ h
  · rfl

theorem Opening.async?_eq_none_of_head {cs : List Char} (h : cs.head? ≠ some 'a') : async? cs = none := by
  refine async?_of_not_word ?_
  rintro ⟨more, rfl⟩
  exact h rfl

/-- No word starts at the head of the text, so it does not matter what stands before it. -/
theorem Outline.read_joined {cs : List Char} (h : cs.head? ≠ some 'a') (joined : Bool) :
    read .start joined cs = read .start false cs := by
  have hopen : Opening.read? joined cs = Opening.read? false cs := by
    simp [Opening.read?, Opening.async?_eq_none_of_head h]
  cases ho : Opening.read? false cs with
  | some o => rw [read_of_opening ho, read_of_opening (hopen.trans ho)]
  | none =>
    have hnone (joined : Bool) (h : Opening.read? joined cs = none) :
        (if Context.start.isCode then Opening.read? joined cs else none) = none := by simp [h]
    rw [read_of_none (hnone joined (hopen.trans ho)), read_of_none (hnone false ho)]

/-! ## Texts -/

/-- Whether an identifier goes on at the end of the text, given whether one does before it. -/
def joinsAfter (joined : Bool) (cs : List Char) : Bool :=
  cs.foldl (fun _ c => Identifier.isContinue c) joined

theorem joinsAfter_append (joined : Bool) (xs ys : List Char) :
    joinsAfter joined (xs ++ ys) = joinsAfter (joinsAfter joined xs) ys := List.foldl_append

theorem joinsAfter_of_ne_nil (joined : Bool) {cs : List Char} (h : cs ≠ []) :
    joinsAfter joined cs = cs.getLast?.any Identifier.isContinue := by
  obtain ⟨front, c, rfl⟩ := (List.eq_nil_or_concat' cs).resolve_left h
  simp [joinsAfter]

theorem joinsAfter_false (cs : List Char) :
    joinsAfter false cs = cs.getLast?.any Identifier.isContinue := by
  by_cases h : cs = []
  · rw [h]
    rfl
  · exact joinsAfter_of_ne_nil false h

theorem joinsAfter_firstStep (joined : Bool) (k : Context) (c : Char) (cs : List Char) :
    joinsAfter joined (firstStep k c cs).text = (firstStep k c cs).text.getLast?.any Identifier.isContinue :=
  joinsAfter_of_ne_nil joined fun hnil => by
    have hhead := firstStep_head k c cs
    rw [hnil] at hhead
    cases hhead

/-- The text ends in the word `async` and blanks. -/
def EndsInWord (joined : Bool) (cs : List Char) : Prop :=
  ∃ front gap, cs = front ++ (asyncWord ++ gap) ∧ (∀ c ∈ gap, isBlank c = true) ∧
    joinsAfter joined front = false

theorem EndsInWord.append {joined : Bool} {xs cs : List Char} (h : EndsInWord (joinsAfter joined xs) cs) :
    EndsInWord joined (xs ++ cs) := by
  obtain ⟨front, gap, rfl, hgap, hjoins⟩ := h
  exact ⟨xs ++ front, gap, by simp, hgap, by rw [joinsAfter_append, hjoins]⟩

theorem Program.endsInAsync_of_endsInWord {cs : List Char} (h : EndsInWord false cs) :
    EndsInAsync cs := by
  obtain ⟨front, gap, rfl, hgap, hjoins⟩ := h
  have htrim : trimEnd (front ++ (asyncWord ++ gap)) = front ++ asyncWord := by
    rw [← List.append_assoc]
    refine dropWhileEnd_append hgap fun c hc => ?_
    rw [List.getLast?_append_of_ne_nil _ (by decide)] at hc
    obtain rfl : 'c' = c := by simpa [asyncWord] using hc
    decide
  refine ⟨by rw [htrim]; exact List.suffix_append front asyncWord, ?_⟩
  rw [htrim, List.length_append, Nat.add_sub_cancel, List.take_left, ← joinsAfter_false]
  exact hjoins

/-- What may follow a text: no letter that would make the word `async` with its end, and no blank
that would go on behind it. -/
def Detached (cs : List Char) : Prop := ∀ c ∈ cs.head?, isBlank c = false ∧ c ∉ "sync".toList

/-- The scan meets no sigil in code. -/
def NoSigil (k : Context) (cs : List Char) : Prop := ∀ s ∈ trace k cs, s.isCodeChar sigil = false

theorem NoSigil.head {k : Context} {c : Char} {cs : List Char} (h : NoSigil k (c :: cs)) :
    ¬(k.isCode && c = sigil) = true := by
  obtain ⟨more, steps, ht⟩ := exists_trace_cons k c cs
  have hhead := h _ (ht ▸ List.mem_cons_self)
  simpa [Step.isCodeChar] using hhead

theorem NoSigil.behind {k : Context} {c : Char} {cs : List Char} (h : NoSigil k (c :: cs)) :
    NoSigil (firstStep k c cs).after (behindStep k c cs) :=
  fun s hs => h s (by rw [trace_cons]; exact List.mem_cons_of_mem _ hs)

/-- In a text without sigils in code, and not before a sigil, `async` starts nothing. -/
theorem Opening.async?_eq_none {xs ys : List Char} (hne : xs ≠ [])
    (hsigil : NoSigil .start xs) (hys : Detached ys)
    (hasync : ys.head? = some sigil → ¬EndsInWord false xs) : async? (xs ++ ys) = none := by
  by_contra hsome
  obtain ⟨o, ho⟩ := Option.ne_none_iff_exists'.mp hsome
  have happ := async?_append ho
  obtain ⟨-, gap, hg, hgap⟩ := async?_spans ho
  rw [hg, asyncPart] at happ
  rcases List.append_eq_append_iff.mp happ with ⟨as, hword, hy⟩ | ⟨bs, hx, hbs⟩
  · cases as with
    | nil =>
      rw [List.append_nil] at hword
      exact hasync (by rw [hy]; rfl) ⟨[], gap, hword.symm, hgap, rfl⟩
    | cons d as =>
      obtain ⟨x, xs, rfl⟩ := List.exists_cons_of_ne_nil hne
      have htail : "sync".toList ++ gap = xs ++ d :: as := (List.cons.inj hword).2
      have hd : d ∈ "sync".toList ++ gap := by
        rw [htail]
        simp
      obtain ⟨hblank, hletter⟩ := hys d (by rw [hy]; rfl)
      rcases List.mem_append.mp hd with hd | hd
      · exact hletter hd
      · simp [hgap d hd] at hblank
  · cases bs with
    | nil =>
      rw [List.append_nil] at hx
      rw [List.nil_append] at hbs
      exact hasync (by rw [← hbs]; rfl) ⟨[], gap, hx, hgap, rfl⟩
    | cons b bs =>
      obtain rfl : sigil = b := (List.cons.inj hbs).1
      have hword : Quiet (asyncWord ++ gap) := Quiet.append (by decide) (quiet_of_blank hgap)
      have hstep : ⟨.start, [sigil], .start⟩ ∈ trace .start xs := by
        rw [hx, hword.joins, hword.run, trace_cons_of_isQuiet isQuiet_sigil]
        simp
      exact absurd (hsigil _ hstep) (by decide)

theorem Opening.read?_text_eq_none {k : Context} (hk : k.Settled) {c : Char} {xs ys : List Char}
    {joined : Bool} (hsigil : NoSigil k (c :: xs)) (hys : Detached ys)
    (hasync : ys.head? = some sigil → ¬EndsInWord joined (c :: xs)) :
    (if k.isCode then read? joined (c :: (xs ++ ys)) else none) = none := by
  split
  · rename_i hcode
    obtain rfl := hk hcode
    have hc : c ≠ sigil := by simpa [Context.isCode, Context.start] using hsigil.head
    cases joined with
    | true => simp [read?, plain?, hc]
    | false =>
      have hnone := async?_eq_none (List.cons_ne_nil c xs) hsigil hys hasync
      rw [List.cons_append] at hnone
      simp [read?, plain?, hc, hnone]
  · rfl

/-- A text that ends in code and has no sigil there is read as it is. -/
theorem Outline.render_read_text {k : Context} (hk : k.Settled) (joined : Bool) {xs ys : List Char}
    (hcode : (k.run xs).isCode = true) (ha : Apart xs ys)
    (hsigil : NoSigil k xs) (hys : Detached ys)
    (hasync : ys.head? = some sigil → ¬EndsInWord joined xs) (w : Keyword) :
    (read k joined (xs ++ ys)).render w = xs ++ (read .start (joinsAfter joined xs) ys).render w := by
  induction k, xs using step_induction generalizing joined with
  | nil k =>
    obtain rfl := hk hcode
    rfl
  | cons k c xs ih =>
    have hnone := Opening.read?_text_eq_none hk hsigil hys hasync
    -- Only the last step of the text can see what follows it.
    by_cases hxs : xs = []
    · subst hxs
      have hn : ∀ d ∈ ys.head?, k.step c (some d) = ((k.step c none).1, false) := fun d hd =>
        Context.step_some_of_isCode hcode (ha c d rfl hd)
      have hnext : (k.step c ys.head?).1 = .start := by
        have hstart := Context.step_settled hk c none hcode
        cases hd : ys.head? with
        | none => exact hstart
        | some d => rw [hn d hd, hstart]
      have hread : (read k joined (c :: ys)).render w = c :: _ :=
        render_read_narrow hnone hsigil.head fun d hd => by rw [hn d hd]
      rw [hnext] at hread
      exact hread
    · obtain ⟨hstep, hbehind⟩ := firstStep_append_of_ne_nil k c hxs ys
      rw [Context.run_cons] at hcode
      have hrest := ih (Context.step_settled hk c _) (joinsAfter joined (firstStep k c xs).text) hcode
        (ha.of_suffix ((behindStep_suffix k c xs).trans (List.suffix_cons c xs))) hsigil.behind
        fun hh he => hasync hh (by rw [← firstStep_append k c xs]; exact he.append)
      rw [List.cons_append, render_read_step hnone hsigil.head, hstep, hbehind, ← joinsAfter_firstStep joined, hrest,
        ← joinsAfter_append, ← List.append_assoc, firstStep_append]

/-! ## Shorthands -/

theorem isBlank_eq_false_of_isContinue {c : Char} (h : Identifier.isContinue c = true) :
    isBlank c = false := by
  have hranges : ∀ r ∈ blankRanges, ∀ n ∈ List.range' r.1 (r.2 + 1 - r.1),
      Identifier.isContinue (Char.ofNat n) = false := by decide +kernel
  by_contra hblank
  have hany : isBlank c = true := by simpa using hblank
  obtain ⟨r, hr, hc⟩ := List.any_eq_true.mp hany
  simp only [Bool.and_eq_true, decide_eq_true_eq] at hc
  have hcontinue := hranges r hr c.toNat (List.mem_range'_1.mpr ⟨hc.1, by omega⟩)
  rw [Char.ofNat_toNat, h] at hcontinue
  exact absurd hcontinue (by decide)

theorem skipBlanks_cons {c : Char} (h : isBlank c = false) (cs : List Char) :
    skipBlanks (c :: cs) = c :: cs := List.dropWhile_cons_of_neg (by simp [h])

theorem skipBlanks_append_of_blanks {gap : List Char} (h : ∀ c ∈ gap, isBlank c = true) (cs : List Char) :
    skipBlanks (gap ++ cs) = skipBlanks cs := List.dropWhile_append_of_pos h

theorem skipBlanks_space (cs : List Char) : skipBlanks (' ' :: cs) = skipBlanks cs :=
  List.dropWhile_cons_of_pos (by decide)

theorem Identifier.read?_append {name cs : List Char} (hstart : name.head?.any Identifier.isStart = true)
    (hname : ∀ c ∈ name, Identifier.isContinue c = true) (hcs : ∀ c ∈ cs.head?, Identifier.isContinue c = false) :
    Identifier.read? (name ++ cs) = some (name, cs) := by
  obtain ⟨c, hc, hs⟩ := (Option.any_eq_true _ _).mp hstart
  obtain ⟨more, rfl⟩ := List.head?_eq_some_iff.mp hc
  have hmore : ∀ d ∈ more, Identifier.isContinue d = true := fun d hd => hname d (List.mem_cons_of_mem c hd)
  have hstop : cs.takeWhile Identifier.isContinue = [] ∧ cs.dropWhile Identifier.isContinue = cs := by
    cases cs with
    | nil => exact ⟨rfl, rfl⟩
    | cons d cs =>
      have hd : ¬Identifier.isContinue d = true := by simp [hcs d rfl]
      exact ⟨List.takeWhile_cons_of_neg hd, List.dropWhile_cons_of_neg hd⟩
  rw [List.cons_append, Identifier.read?, if_pos hs, List.takeWhile_append_of_pos hmore,
    List.dropWhile_append_of_pos hmore, hstop.1, hstop.2, List.append_nil]

namespace Shorthand

theorem readStar_print (generator : Bool) {cs : List Char} (h : (skipBlanks cs).head? ≠ some '*') :
    readStar ((if generator then ['*', ' '] else [' ']) ++ cs) = (generator, skipBlanks cs) := by
  cases generator with
  | true => exact congrArg (true, ·) (skipBlanks_space cs)
  | false =>
    change readStar (' ' :: cs) = _
    rw [readStar, skipBlanks_space]
    split
    · rename_i hstar
      rw [hstar] at h
      exact absurd rfl h
    · rfl

variable {h : Head} {cs more : List Char} {c : Char}

theorem readName_print (hv : h.Valid) (hcs : ∀ d ∈ cs.head?, Identifier.isContinue d = false)
    (hskip : skipBlanks cs = c :: more) (hc : c = '(' ∨ c = '{') :
    readName (skipBlanks (h.name.getD [] ++ cs)) = (h.name, c :: more) ∧
      (skipBlanks (h.name.getD [] ++ cs)).head? ≠ some '*' := by
  cases hn : h.name with
  | none =>
    have hread : Identifier.read? (c :: more) = none := by
      rcases hc with rfl | rfl <;> rfl
    rw [Option.getD_none, List.nil_append, hskip, readName, hread]
    exact ⟨rfl, by rcases hc with rfl | rfl <;> simp⟩
  | some name =>
    obtain ⟨hstart, hname⟩ := hv name hn
    have hread := Identifier.read?_append hstart hname hcs
    obtain ⟨d, hd, hs⟩ := (Option.any_eq_true _ _).mp hstart
    obtain ⟨back, rfl⟩ := List.head?_eq_some_iff.mp hd
    have hblank := isBlank_eq_false_of_isContinue (Identifier.isContinue_of_isStart hs)
    rw [Option.getD_some, List.cons_append, skipBlanks_cons hblank]
    rw [List.cons_append] at hread
    constructor
    · rw [readName, hread]
      exact Prod.ext rfl hskip
    · intro hstar
      obtain rfl : d = '*' := Option.some.inj hstar
      exact absurd hs (by decide)

theorem readParams?_print {params : Program} (hp : params.Valid) (after : List Char) :
    readParams? (Bracket.paren.around params.print ++ after) =
      some ⟨params.print ++ ')' :: after, params.print, skipBlanks after⟩ := by
  have he := Program.enclosed?_print hp .paren after
  rw [Bracket.around, List.cons_append, List.append_assoc]
  exact congrArg (Option.map fun r => Stretch.mk _ r.1 (skipBlanks r.2)) he

theorem readBody?_print {body : Program} (hb : body.Valid) (generator : Bool) (after : List Char) :
    readBody? generator (Bracket.curly.around body.print ++ after) =
      some (.block body.print, ⟨body.print ++ '}' :: after, body.print, after⟩) := by
  have he := Program.enclosed?_print hb .curly after
  rw [Bracket.around, List.cons_append, List.append_assoc]
  exact congrArg (Option.map fun r => (Body.block r.1, Stretch.mk _ r.1 r.2)) he

theorem readBody?_expression {cs after : List Char} (hcs : cs.head?.any (· ≠ '{') = true)
    (he : expression (cs ++ after) = (cs, after)) :
    readBody? false (cs ++ after) = some (.expression cs, ⟨cs ++ after, cs, after⟩) := by
  obtain ⟨c, hc, hne⟩ := (Option.any_eq_true _ _).mp hcs
  obtain ⟨more, rfl⟩ := List.head?_eq_some_iff.mp hc
  unfold readBody?
  split
  · rename_i hcurly
    simp [(List.cons.inj hcurly).1] at hne
  · rw [he]
    rfl

/-- The shorthand has the star and the name of the head, and these parameters and this body. -/
structure Has (s : Shorthand) (h : Head) (params : List Char) (body : Body) : Prop where
  generator : s.generator = h.generator
  name : s.name = h.name
  params : s.params = params
  body : s.body = body

theorem read?_print (hv : h.Valid) (hcs : ∀ d ∈ cs.head?, Identifier.isContinue d = false)
    (hskip : skipBlanks cs = c :: more) (hc : c = '(' ∨ c = '{') {p b : Stretch} {body : Body}
    (hp : readParams? (c :: more) = some p) (hb : readBody? h.generator p.rest = some (body, b)) :
    ∃ s, read? ((if h.generator then ['*', ' '] else [' ']) ++ (h.name.getD [] ++ cs)) =
      some (s, b.rest) ∧ s.Has h p.text body := by
  obtain ⟨hname, hstar⟩ := readName_print hv hcs hskip hc
  have hread := readStar_print h.generator hstar
  simp only [read?, hread, hname, hp, hb, Option.bind_some, Option.map_some]
  exact ⟨_, rfl, rfl, rfl, rfl, rfl⟩

theorem Has.standard_block {s : Shorthand} {params : List Char} {block : List Char}
    (h' : s.Has h params (.block block)) (w : Keyword) (ps body : List Char) :
    s.standard w h.isAsync ps body = h.declare w false (h.withBlock ps body) := by
  obtain ⟨generator, name, lead, p, middle, b, close⟩ := s
  obtain ⟨isAsync, generator', name'⟩ := h
  obtain ⟨rfl, rfl, rfl, rfl⟩ := h'
  cases name <;> cases generator <;> cases isAsync <;>
    simp [standard, function, Head.declare, Head.withBlock, Bracket.around, Bracket.opener,
      Bracket.closer, asyncWord]

theorem Has.standard_expression {s : Shorthand} {params : List Char} {expr : List Char}
    (h' : s.Has h params (.expression expr)) (w : Keyword) (ps body : List Char) :
    s.standard w h.isAsync ps body =
      h.declare w false (h.withExpression ps (cleanExpression body)) := by
  obtain ⟨generator, name, lead, p, middle, b, close⟩ := s
  obtain ⟨isAsync, generator', name'⟩ := h
  obtain ⟨rfl, rfl, rfl, rfl⟩ := h'
  cases name <;> cases isAsync <;>
    simp [standard, function, Head.declare, Head.withExpression, Bracket.around, Bracket.opener,
      Bracket.closer, asyncWord]

end Shorthand

/-- Before the sigil of a printed head stands at most the word `async`. -/
theorem Opening.read?_print {h : Head} {cs after : List Char} {s : Shorthand}
    (hs : Shorthand.read? ((if h.generator then ['*', ' '] else [' ']) ++ (h.name.getD [] ++ cs)) =
      some (s, after)) :
    ∃ gap, read? false (h.print ++ cs) = some ⟨gap, s, after⟩ ∧ gap.isSome = h.isAsync := by
  have hplain : plain? (sigil :: ((if h.generator then ['*', ' '] else [' ']) ++ (h.name.getD [] ++ cs))) =
      some ⟨none, s, after⟩ := by
    rw [plain?, if_pos rfl, hs]
    rfl
  have hprint : h.print ++ cs = (if h.isAsync then "async ".toList else []) ++
      (sigil :: ((if h.generator then ['*', ' '] else [' ']) ++ (h.name.getD [] ++ cs))) := by
    rw [Head.print, List.append_assoc, List.append_assoc]
    rfl
  rw [hprint]
  generalize (if h.generator then ['*', ' '] else [' ']) ++ (h.name.getD [] ++ cs) = back at hplain ⊢
  cases h.isAsync with
  | false => exact ⟨none, by simp [read?, hplain], rfl⟩
  | true =>
    have hskip : skipBlanks (' ' :: sigil :: back) = sigil :: back := by
      rw [skipBlanks_space, skipBlanks_cons (by decide)]
    refine ⟨some [' '], ?_, rfl⟩
    change (plain? ('a' :: _)).or (async? ('a' :: 's' :: 'y' :: 'n' :: 'c' :: ' ' :: sigil :: back)) = _
    rw [plain?, if_neg (by decide), Option.none_or, async?, hskip, hplain]
    rfl

namespace Outline

/-- A printed shorthand is rendered as one. Either its brace ends it, or no word goes on behind it. -/
theorem render_read_print {h : Head} {cs after params : List Char} {s : Shorthand} {body : Body}
    (hs : Shorthand.read? ((if h.generator then ['*', ' '] else [' ']) ++ (h.name.getD [] ++ cs)) =
      some (s, after)) (hhas : s.Has h params body)
    (hend : (∃ front, cs = front ++ '}' :: after) ∨ after.head? ≠ some 'a')
    (w : Keyword) :
    (read .start false (h.print ++ cs)).render w =
      s.standard w h.isAsync ((read .start false params).render w)
        ((read .start false body.text).render w) ++ (read .start false after).render w := by
  obtain ⟨gap, ho, hgap⟩ := Opening.read?_print hs
  rw [read_of_opening ho, render, hgap, hhas.params, hhas.body]
  congr 1
  rcases hend with ⟨front, rfl⟩ | hhead
  · have hspan := Shorthand.read?_append hs
    rw [← List.append_assoc, ← List.append_assoc, List.append_cons] at hspan
    have hjoins : (Opening.mk gap s after).joins = false := by
      rw [Opening.joins, List.append_cancel_right hspan, List.getLast?_concat]
      rfl
    rw [hjoins]
  · exact congrArg (render w) (read_joined hhead _)

end Outline

end Florin
