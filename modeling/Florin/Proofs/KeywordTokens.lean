import Florin.Proofs.AsyncWord
import Florin.Proofs.Templates

/-! # What a keyword is joined to

A scan looks at the character before a word, so that no end of an identifier is taken for the word `async`. It does
not look at the one before a sigil. So the keyword of a declaration goes on with the identifier before it just if
the identifier ends right before the sigil in the source, and is not a word `async` that is taken back.
-/
namespace Florin
open Text Lexical

/-- The text ends in a character that an identifier goes on with. -/
def endsJoined (cs : List Char) : Bool := cs.getLast?.any Identifier.isContinue

theorem endsJoined_concat (cs : List Char) (c : Char) : endsJoined (cs ++ [c]) = Identifier.isContinue c := by
  simp [endsJoined]

theorem endsJoined_append (cs : List Char) {ds : List Char} (h : ds ≠ []) :
    endsJoined (cs ++ ds) = endsJoined ds := by
  rw [endsJoined, List.getLast?_append_of_ne_nil _ h, endsJoined]

theorem isStart_sigil : Identifier.isStart sigil = true := by decide

/-- Behind a shorthand that ends joined comes no identifier and no sigil. -/
theorem Shorthand.Spans.endsJoined_span {s : Shorthand} {after : List Char} (h : s.Spans after)
    (hafter : after.head?.any Identifier.isStart = true) : endsJoined s.span = false := by
  obtain ⟨c, more, rfl⟩ : ∃ c more, after = c :: more := by
    cases after with
    | nil => simp at hafter
    | cons c more => exact ⟨c, more, rfl⟩
  have hc : Identifier.isContinue c = true := Identifier.isContinue_of_isStart (by simpa using hafter)
  have hblank : isBlank c = false := isBlank_eq_false_of_isContinue hc
  -- An expression ends before a closer, a separator or a comment; blanks behind it are no part of it.
  rcases h.body_ends with hrun | ⟨hrest, -⟩
  · rcases h.followed hrun with hbrace | hnone
    · rw [endsJoined, hbrace]
      decide
    · rw [skipBlanks_cons hblank] at hnone
      exact absurd hc (by simp [hnone c rfl])
  · exact absurd (hrest c List.mem_cons_self) (by simp [hblank])

/-! ## Along the rounds -/

namespace Scan

/-- What a scan knows of its output. Where a word or a sigil may come next, it knows whether the output ends
joined. The output without the word `async` that is pending does not. -/
structure Bounded (t : Stage) : Prop where
  last : t.rest.head?.any Identifier.isStart = true → endsJoined t.state.done.output = t.state.joined
  held : ∀ offset ∈ t.state.pending, ∃ kept gap, t.state.done.output = kept ++ gap ∧
    offset = byteLength kept ∧ endsJoined kept = false

namespace Bounded
variable {place p : Nat} {σ : State} {cs rest after : List Char} {t t' : Stage} {w : Keyword}

theorem begin (place : Nat) (cs : List Char) : Bounded (.begin place cs) :=
  ⟨fun _ => rfl, by simp [Stage.begin, State.initial]⟩

theorem copy {text : List Char} (hne : text ≠ []) {k : Context} {pending : Option Nat}
    (h : ∀ offset ∈ pending, ∃ kept gap, σ.done.output = kept ++ gap ∧ offset = byteLength kept ∧
      endsJoined kept = false) : Bounded ⟨p, σ.copy text k pending, rest⟩ where
  last _ := endsJoined_append _ hne
  held offset hoffset := by
    obtain ⟨kept, gap, houtput, hlength, hkept⟩ := h offset hoffset
    exact ⟨kept, gap ++ text, by rw [← List.append_assoc, ← houtput]; rfl, hlength, hkept⟩

theorem copyWord {c : Char} {word : List Char} (h : Bounded ⟨p, σ, c :: cs⟩)
    (hw : word? σ.joined (c :: cs) = some (word, after)) : Bounded ⟨place, σ.copyWord word, after⟩ := by
  obtain ⟨hjoined, hstart, hword, -⟩ := word?_spec hw
  refine copy (by rw [hword]; exact List.cons_ne_nil _ _) fun offset hoffset => ?_
  obtain rfl := Option.some.inj (Option.ite_none_right_eq_some.mp hoffset).2
  exact ⟨_, [], (List.append_nil _).symm, rfl, (h.last (by simpa using hstart)).trans hjoined⟩

theorem copyStep {c : Char} {text : List Char} (h : Bounded ⟨p, σ, cs⟩) (hne : text ≠ []) (k : Context) :
    Bounded ⟨place, σ.copyStep c text k, rest⟩ := by
  refine copy hne fun offset hoffset => h.held offset ?_
  exact (Option.ite_none_right_eq_some.mp hoffset).2

theorem stepOver {c : Char} (h : Bounded ⟨p, σ, c :: cs⟩) : Bounded (stepOver place σ c cs) := by
  unfold Scan.stepOver
  split
  · exact h.copyStep (List.cons_ne_nil _ _) _
  · split
    · exact h.copyStep (List.cons_ne_nil _ _) _
    · exact h.copyStep (List.cons_ne_nil _ _) _

theorem copySigil (σ : State) (p place : Nat) (rest : List Char) : Bounded ⟨p, σ.copySigil place, rest⟩ where
  last _ := endsJoined_concat _ sigil
  held := by simp [State.copySigil]

/-- A standard form ends in a semicolon or a parenthesis. -/
theorem emit {s : Shorthand} (hr : Shorthand.read? rest = some (s, after)) (σ : State) (p : Nat) (params body : Scan) :
    Bounded ⟨p, σ.emit w place s params body, after⟩ where
  last hafter := by
    obtain ⟨front, hfront⟩ := s.standard_concat w σ.pending.isSome params.output body.output
    change endsJoined (σ.cut ++ s.standard w σ.pending.isSome params.output body.output) = endsJoined s.span
    rw [(Shorthand.read?_spans hr).endsJoined_span hafter, hfront, ← List.append_assoc, endsJoined_concat]
    cases s.name.isSome <;> decide
  held := by simp [State.emit]

theorem of_round? (h : Bounded t) (hround : round? w t.place t.state t.rest = some t') : Bounded t' := by
  obtain ⟨p, σ, cs⟩ := t
  cases cs with
  | nil => simp [round?] at hround
  | cons c rest =>
    dsimp only at hround
    rw [round?] at hround
    split at hround
    · split at hround
      · rename_i s after hr
        obtain rfl := Option.some.inj hround
        exact emit hr σ _ _ _
      · obtain rfl := Option.some.inj hround
        exact copySigil σ _ _ _
    · split at hround
      · rename_i word after hw
        obtain ⟨-, hw⟩ := Option.ite_none_right_eq_some.mp hw
        obtain rfl := Option.some.inj hround
        exact h.copyWord hw
      · obtain rfl := Option.some.inj hround
        exact h.stepOver

theorem of_rounds? {n : Nat} (h : Bounded t) (hrounds : rounds? w n t = some t') : Bounded t' :=
  rounds_induction h (fun _ _ hu hround => hu.of_round? hround) hrounds

/-- What a keyword is put behind is joined to it unless a word `async` is taken back. -/
theorem endsJoined_cut (h : Bounded t) (hrest : t.rest = sigil :: rest) :
    endsJoined t.state.cut = (t.state.pending.isNone && t.state.joined) := by
  rw [State.cut]
  cases hpending : t.state.pending with
  | none => exact h.last (by rw [hrest]; exact isStart_sigil)
  | some offset =>
    obtain ⟨kept, gap, houtput, rfl, hkept⟩ := h.held offset hpending
    simp only [houtput, takeBytes_append]
    exact hkept

end Bounded

end Scan

/-! ## Templates -/

namespace Template

/-- Whether a text that ends joined or not does so with this behind it. -/
def joinsAfter (joined : Bool) : Template → Bool
  | [] => joined
  | .letter c :: t => joinsAfter (Identifier.isContinue c) t
  | .hole _ :: t => joinsAfter true t

/-- The places of the holes, and whether the text before each one ends joined. -/
def joints (joined : Bool) : Template → List (Nat × Bool)
  | [] => []
  | .letter c :: t => joints (Identifier.isContinue c) t
  | .hole place :: t => (place, joined) :: joints true t

section Joints
variable (joined : Bool) (t u : Template)

theorem joinsAfter_append : joinsAfter joined (t ++ u) = joinsAfter (joinsAfter joined t) u := by
  induction t generalizing joined with
  | nil => rfl
  | cons piece t ih => cases piece <;> exact ih _

theorem joints_append : joints joined (t ++ u) = joints joined t ++ joints (joinsAfter joined t) u := by
  induction t generalizing joined with
  | nil => rfl
  | cons piece t ih =>
    cases piece with
    | letter c => exact ih _
    | hole place => exact congrArg ((place, joined) :: ·) (ih _)

theorem joints_literal (cs : List Char) : joints joined (literal cs) = [] := by
  induction cs generalizing joined with
  | nil => rfl
  | cons c cs ih => exact ih _

theorem joinsAfter_literal {cs : List Char} (h : cs ≠ []) : joinsAfter joined (literal cs) = endsJoined cs := by
  obtain ⟨front, c, rfl⟩ := (List.eq_nil_or_concat' cs).resolve_left h
  rw [endsJoined_concat, literal, List.map_append, joinsAfter_append]
  rfl

theorem joints_dropWhileEnd (p : Char → Bool) :
    joints joined (dropWhileEnd (Piece.test p) t) = joints joined t := by
  induction t using List.reverseRecOn with
  | nil => rfl
  | append_singleton t piece ih =>
    rw [dropWhileEnd_concat]
    split
    · rename_i hp
      cases piece with
      | letter c =>
        rw [ih, joints_append]
        exact (List.append_nil _).symm
      | hole place => simp [Piece.test] at hp
    · rfl

theorem joints_clean : joints joined t.clean = joints joined t := by simp only [clean, joints_dropWhileEnd]

theorem mem_joints (place : Nat) : (place, joinsAfter joined t) ∈ joints joined (t ++ .hole place :: u) := by
  rw [joints_append]
  exact List.mem_append_right _ List.mem_cons_self

end Joints

theorem endsJoined_fill (w : Keyword) (t : Template) : endsJoined (fill w t) = joinsAfter false t := by
  induction t using List.reverseRecOn with
  | nil => rfl
  | append_singleton t piece _ =>
    rw [fill_append, joinsAfter_append]
    cases piece with
    | letter c => exact endsJoined_concat _ c
    | hole place =>
      have hname : fill w [.hole place] = w.name.toList := by simp [fill, Piece.fill]
      rw [hname, endsJoined_append _ (by cases w <;> decide)]
      change endsJoined w.name.toList = true
      cases w <;> decide

/-- Behind every hole come a blank and, further on, an equals sign. -/
def Spaced : Template → Prop
  | [] => True
  | .letter _ :: t => Spaced t
  | .hole _ :: t => t.head? = some (.letter ' ') ∧ Piece.letter '=' ∈ t ∧ Spaced t

namespace Spaced
variable {t u : Template}

theorem append (ht : Spaced t) (hu : Spaced u) : Spaced (t ++ u) := by
  induction t with
  | nil => exact hu
  | cons piece t ih =>
    cases piece with
    | letter c => exact ih ht
    | hole place =>
      obtain ⟨hhead, hmem, ht⟩ := ht
      have hhead' : (t ++ u).head? = some (.letter ' ') := by rw [List.head?_append, hhead, Option.some_or]
      exact ⟨hhead', List.mem_append_left _ hmem, ih ht⟩

theorem literal (cs : List Char) : Spaced (literal cs) := by
  induction cs with
  | nil => trivial
  | cons c cs ih => exact ih

theorem of_concat {c : Char} (hc : c ≠ '=') (h : Spaced (t ++ [.letter c])) : Spaced t := by
  induction t with
  | nil => trivial
  | cons piece t ih =>
    cases piece with
    | letter d => exact ih h
    | hole place =>
      obtain ⟨hhead, hmem, h⟩ : (t ++ [Piece.letter c]).head? = some (.letter ' ') ∧
        Piece.letter '=' ∈ t ++ [Piece.letter c] ∧ Spaced (t ++ [Piece.letter c]) := h
      have hmem : Piece.letter '=' ∈ t := by simpa [hc.symm] using hmem
      rw [List.head?_append_of_ne_nil _ (List.ne_nil_of_mem hmem)] at hhead
      exact ⟨hhead, hmem, ih h⟩

theorem dropWhileEnd {p : Char → Bool} (hp : p '=' = false) (h : Spaced t) :
    Spaced (dropWhileEnd (Piece.test p) t) := by
  induction t using List.reverseRecOn with
  | nil => exact h
  | append_singleton t piece ih =>
    rw [dropWhileEnd_concat]
    split
    · rename_i hpiece
      cases piece with
      | letter c =>
        refine ih (h.of_concat ?_)
        rintro rfl
        exact absurd hpiece (by simp [Piece.test, hp])
      | hole place => simp [Piece.test] at hpiece
    · exact h

theorem clean (h : Spaced t) : Spaced t.clean :=
  ((h.dropWhileEnd (by decide)).dropWhileEnd (by decide)).dropWhileEnd (by decide)

theorem head_eq {place : Nat} (h : Spaced (t ++ .hole place :: u)) : u.head? = some (.letter ' ') := by
  induction t with
  | nil => exact h.1
  | cons piece t ih =>
    cases piece with
    | letter c => exact ih h
    | hole place => exact ih h.2.2

end Spaced

end Template

namespace Shorthand
variable (s : Shorthand) (isAsync : Bool)

theorem endsJoined_behindKeyword : s.behindKeyword isAsync ≠ [] ∧ endsJoined (s.behindKeyword isAsync) = false := by
  unfold behindKeyword
  cases s.body.isBlock && s.generator
  · exact ⟨by simp, endsJoined_concat _ '('⟩
  · exact ⟨by simp, endsJoined_append _ (by decide)⟩

/-- Behind the keyword come the name and an equals sign, between blanks. -/
theorem exists_behindKeyword {name : List Char} (h : s.name = some name) :
    ∃ more, s.behindKeyword isAsync = ' ' :: (name ++ ' ' :: '=' :: more) := by
  unfold behindKeyword
  rw [h]
  exact ⟨_, by simp only [List.cons_append, List.append_assoc, List.nil_append]; rfl⟩

theorem exists_standard (h : s.name.isSome = true) (w : Keyword) (params body : List Char) :
    ∃ more, s.standard w isAsync params body = w.name.toList ++ ' ' :: more := by
  obtain ⟨name, hname⟩ := Option.isSome_iff_exists.mp h
  obtain ⟨more, hmore⟩ := s.exists_behindKeyword isAsync hname
  rw [standard_eq, standardFront_eq, hmore, if_pos h]
  exact ⟨_, by rw [List.append_assoc, List.cons_append]⟩

theorem endsJoined_standardMiddle : s.standardMiddle ≠ [] ∧ endsJoined s.standardMiddle = false := by
  unfold standardMiddle
  cases s.body.isBlock <;> cases s.generator <;> decide

theorem endsJoined_standardClose : s.standardClose ≠ [] ∧ endsJoined s.standardClose = false := by
  unfold standardClose
  cases s.body.isBlock <;> cases s.name.isSome <;> decide

theorem joinsAfter_template (place : Nat) (params body : Template) (joined : Bool) :
    (s.template place isAsync params body).joinsAfter joined = false := by
  obtain ⟨hne, hclose⟩ := s.endsJoined_standardClose
  rw [template]
  simp only [Template.joinsAfter_append]
  rw [Template.joinsAfter_literal _ hne, hclose]

/-- Before the keyword is what was there, before the parameters and the body a bracket or a blank. -/
theorem joints_template (place : Nat) (params body : Template) (joined : Bool) :
    (s.template place isAsync params body).joints joined =
      (if s.name.isSome then [(place, joined)] else []) ++ (params.joints false ++ body.joints false) := by
  obtain ⟨hfront, hbehind⟩ := s.endsJoined_behindKeyword isAsync
  obtain ⟨hmid, hmiddle⟩ := s.endsJoined_standardMiddle
  have hname : Template.joints joined (if s.name.isSome then [.hole place] else []) =
      if s.name.isSome then [(place, joined)] else [] := by
    cases s.name <;> rfl
  have hbody : Template.joints false (if s.body.isBlock then body else body.clean) = body.joints false := by
    split
    · rfl
    · exact Template.joints_clean false body
  rw [template]
  simp only [Template.joints_append, Template.joinsAfter_append, Template.joints_literal,
    Template.joinsAfter_literal _ hfront, Template.joinsAfter_literal _ hmid, hbehind, hmiddle, hname, hbody,
    List.nil_append, List.append_nil]

theorem spaced_template (place : Nat) {params body : Template} (hparams : params.Spaced) (hbody : body.Spaced) :
    (s.template place isAsync params body).Spaced := by
  have hfront : Template.Spaced
      ((if s.name.isSome then [.hole place] else []) ++ Template.literal (s.behindKeyword isAsync)) := by
    cases hname : s.name with
    | none => exact Template.Spaced.literal _
    | some name =>
      obtain ⟨more, hmore⟩ := s.exists_behindKeyword isAsync hname
      rw [hmore]
      exact ⟨rfl, by simp [Template.literal], Template.Spaced.literal _⟩
  have hinner : Template.Spaced (if s.body.isBlock then body else body.clean) := by
    split
    · exact hbody
    · exact hbody.clean
  exact hfront.append (hparams.append ((Template.Spaced.literal _).append (hinner.append (Template.Spaced.literal _))))

end Shorthand

theorem Outline.spaced_template (o : Outline) (place : Nat) : (o.template place).Spaced := by
  induction o generalizing place with
  | done => trivial
  | text cs rest ih => exact (Template.Spaced.literal cs).append (ih _)
  | leftover rest ih => exact ih (place + 1)
  | shorthand gap s params body rest ihParams ihBody ihRest =>
    exact (s.spaced_template _ _ (ihParams _) (ihBody _)).append (ihRest _)

/-! ## What stands before the parts of a shorthand -/

/-- A text follows in another one behind a character that no identifier goes on from. -/
def SetOff (rest cs : List Char) : Prop := ∃ front c, cs = front ++ c :: rest ∧ Identifier.isContinue c = false

section SetOff
variable {rest cs ds : List Char}

theorem SetOff.of_suffix (h : SetOff rest cs) (hcs : cs <:+ ds) : SetOff rest ds := by
  obtain ⟨front, c, rfl, hc⟩ := h
  obtain ⟨before, rfl⟩ := hcs
  exact ⟨before ++ front, c, by rw [List.append_assoc], hc⟩

theorem SetOff.endsJoined_eq (h : SetOff rest cs) {front : List Char} (hcs : cs = front ++ rest) (c : Char) :
    endsJoined (c :: front) = false := by
  obtain ⟨head, d, rfl, hd⟩ := h
  rw [List.append_cons] at hcs
  obtain rfl := List.append_cancel_right hcs
  rw [← List.cons_append, endsJoined_concat, hd]

theorem skipBlanks_setOff (cs : List Char) : skipBlanks cs = cs ∨ SetOff (skipBlanks cs) cs := by
  have hcs : cs.takeWhile isBlank ++ skipBlanks cs = cs := List.takeWhile_append_dropWhile
  rcases List.eq_nil_or_concat' (cs.takeWhile isBlank) with hnil | ⟨blanks, c, hblanks⟩
  · rw [hnil, List.nil_append] at hcs
    exact Or.inl hcs
  · have hc : isBlank c = true := blanks_of_takeWhile cs c (by rw [hblanks]; simp)
    refine Or.inr ⟨blanks, c, by rw [List.append_cons, ← hblanks, hcs], ?_⟩
    by_contra hcontinue
    rw [isBlank_eq_false_of_isContinue (by simpa using hcontinue)] at hc
    exact Bool.noConfusion hc

theorem SetOff.skipBlanks (h : SetOff rest cs) : SetOff (skipBlanks rest) cs := by
  rcases skipBlanks_setOff rest with heq | hset
  · rwa [heq]
  · obtain ⟨front, c, rfl, -⟩ := h
    exact hset.of_suffix ((List.suffix_cons c rest).trans (List.suffix_append _ _))

end SetOff

namespace Shorthand
variable {cs rest : List Char}

/-- No identifier goes on or starts where a name may stand but none is read. -/
theorem readName_setOff (h : (readName cs).2.head?.any Identifier.isStart = true) :
    SetOff (readName cs).2 cs := by
  unfold readName at h ⊢
  cases hread : Identifier.read? cs with
  | none =>
    rw [hread] at h
    cases cs with
    | nil => simp at h
    | cons c more =>
      rw [Identifier.read?, if_pos (by simpa using h)] at hread
      simp at hread
  | some r =>
    obtain ⟨name, after⟩ := r
    rw [hread] at h
    refine ((skipBlanks_setOff after).resolve_left fun heq => ?_).of_suffix
      ⟨name, Identifier.append_of_read? hread⟩
    cases cs with
    | nil => simp [Identifier.read?] at hread
    | cons c more =>
      rw [Identifier.read?, Option.ite_none_right_eq_some, Option.some.injEq, Prod.mk.injEq] at hread
      obtain ⟨-, -, rfl⟩ := hread
      have hhead := List.head?_dropWhile_not Identifier.isContinue more
      simp only [heq] at h
      cases hafter : (more.dropWhile Identifier.isContinue).head? with
      | none => simp [hafter] at h
      | some d =>
        rw [hafter] at h hhead
        simp [Identifier.isContinue_of_isStart (by simpa using h : Identifier.isStart d = true)] at hhead

theorem readParams?_setOff {p : Stretch} (h : readParams? cs = some p) :
    (p.text = [] ∨ SetOff p.source cs) ∧ (p.rest = cs ∨ SetOff p.rest cs) := by
  unfold readParams? at h
  split at h
  · rename_i inside
    obtain ⟨⟨inner, after⟩, he, rfl⟩ := Option.map_eq_some_iff.mp h
    obtain rfl := Bracket.enclosed?_append he
    have hafter : SetOff after ('(' :: (inner ++ Bracket.paren.closer :: after)) :=
      ⟨'(' :: inner, ')', rfl, by decide⟩
    exact ⟨Or.inr ⟨[], '(', rfl, by decide⟩, Or.inr hafter.skipBlanks⟩
  · obtain rfl := Option.some.inj h
    exact ⟨Or.inl rfl, Or.inl rfl⟩

theorem readBody?_setOff {generator : Bool} {body : Body} {b : Stretch}
    (h : readBody? generator cs = some (body, b)) : b.source = cs ∨ SetOff b.source cs := by
  unfold readBody? at h
  split at h
  · rename_i inside
    obtain ⟨r, -, hp⟩ := Option.map_eq_some_iff.mp h
    obtain ⟨-, rfl⟩ := Prod.mk.inj hp
    exact Or.inr ⟨[], '{', rfl, by decide⟩
  · split at h
    · simp at h
    · obtain ⟨-, rfl⟩ := Prod.mk.inj (Option.some.inj h)
      exact Or.inl rfl

/-- No identifier goes on into the parameters or the body of a shorthand. -/
theorem read?_setOff {s : Shorthand} (h : read? cs = some (s, rest)) :
    (s.params ≠ [] → endsJoined (sigil :: s.lead) = false) ∧
      (s.body.text.head?.any Identifier.isStart = true →
        endsJoined (sigil :: (s.lead ++ s.params ++ s.middle)) = false) := by
  have hspan := read?_append h
  obtain ⟨p, hp, hb⟩ := Option.bind_eq_some_iff.mp h
  obtain ⟨⟨body, b⟩, hbody, he⟩ := Option.map_eq_some_iff.mp hb
  obtain ⟨rfl, rfl⟩ := Prod.mk.inj he
  obtain ⟨hpfits, hpsource⟩ := readParams?_fits hp
  obtain ⟨hbfits, -, htext⟩ := readBody?_fits hbody
  have hstar := readStar_suffix cs
  have hname := (readName_suffix (readStar cs).2).trans hstar
  constructor
  · intro hne
    have hset := ((readParams?_setOff hp).1.resolve_left hne).of_suffix hname
    exact hset.endsJoined_eq (textBefore_append (hpsource.trans hname)).symm sigil
  · intro hstart
    have hsource : body.text ++ (b.after b.rest ++ b.rest) = b.source := by
      rw [htext, Stretch.after, textBefore_append hbfits.drop.2, hbfits.drop.1]
    have hhead : b.source.head?.any Identifier.isStart = true := by
      rw [← hsource]
      cases hc : body.text with
      | nil => simp [hc] at hstart
      | cons c more => simpa [hc] using hstart
    -- Where nothing is read before the body, it stands where a name might have stood.
    have hset : SetOff b.source cs := by
      rcases readBody?_setOff hbody with heq | hset
      · rcases (readParams?_setOff hp).2 with hrest | hset
        · rw [heq, hrest] at hhead ⊢
          exact (readName_setOff hhead).of_suffix hstar
        · exact heq ▸ hset.of_suffix hname
      · exact hset.of_suffix (((hpfits.drop.2.trans (List.drop_suffix _ _)).trans hpsource).trans hname)
    refine hset.endsJoined_eq (hspan.symm.trans ?_) sigil
    simp only [span, List.append_assoc]
    rw [hsource]

end Shorthand

/-! ## Outlines -/

namespace Opening

/-- Behind an identifier no word `async` is taken back. -/
theorem joined_eq_false {joined : Bool} {cs : List Char} {o : Opening} (h : read? joined cs = some o)
    (hgap : o.gap.isSome = true) : joined = false := by
  rcases Option.or_eq_some_iff.mp h with hp | ⟨-, ha⟩
  · simp [(plain?_append hp).1] at hgap
  · simpa using (Option.ite_none_left_eq_some.mp ha).1

end Opening

/-- The place of a declaration, and whether its keyword is joined to what stands before the sigil there. -/
def Attempt.joint? (source : List Char) (a : Attempt) : Option (Nat × Bool) :=
  match a.outcome with
  | .leftover => none
  | .shorthand isAsync s =>
    if s.name.isSome then some (a.place, !isAsync && endsJoined (source.take a.place)) else none

namespace Outline

/-- Before an opening the source and the output end alike, or a word `async` stands there. -/
theorem joint_of_opening {joined j : Bool} {cs front : List Char} {o : Opening} (h : Opening.read? joined cs = some o)
    (hstart : cs.head?.any Identifier.isStart = true → endsJoined front = j ∧ joined = j) (back : List Char) :
    Attempt.joint? (front ++ (cs ++ back))
        ⟨front.length + (asyncPart o.gap).length, .shorthand o.gap.isSome o.shorthand⟩ =
      if o.shorthand.name.isSome then some (front.length + (asyncPart o.gap).length, j) else none := by
  have hcs := Opening.read?_append h
  suffices hjoint : (!o.gap.isSome &&
      endsJoined ((front ++ (cs ++ back)).take (front.length + (asyncPart o.gap).length))) = j by
    simp only [Attempt.joint?, hjoint]
  cases hgap : o.gap with
  | none =>
    rw [hgap] at hcs
    obtain ⟨hfront, -⟩ := hstart (by rw [hcs]; exact isStart_sigil)
    simpa [asyncPart] using hfront
  | some gap =>
    rw [hgap] at hcs
    obtain ⟨-, hjoined⟩ := hstart (by rw [hcs]; exact (by decide : Identifier.isStart 'a' = true))
    rw [← hjoined, Opening.joined_eq_false h (by rw [hgap]; rfl)]
    rfl

/-- In the template of a text a hole is joined to what is before it just if the sigil there is in the source. -/
theorem joints_template_read {source : List Char} {k : Context} {joined : Bool} {cs : List Char}
    (front back : List Char) (place : Nat) (j : Bool) (hsource : source = front ++ (cs ++ back))
    (hplace : place = front.length)
    (hstart : cs.head?.any Identifier.isStart = true → endsJoined front = j ∧ joined = j) :
    ((read k joined cs).template place).joints j =
      ((read k joined cs).attempts place).filterMap (Attempt.joint? source) := by
  induction k, joined, cs using read_induction generalizing front back place j with
  | nil k joined =>
    rw [read_nil]
    rfl
  | opening k joined cs o hcode ho ihParams ihBody ihRest =>
    have hjoint := joint_of_opening ho hstart back
    have hcs := Opening.read?_append ho
    have hspans := (Opening.read?_spans ho).1
    obtain ⟨hsetParams, hsetBody⟩ := Shorthand.read?_setOff (Opening.read?_shorthand ho)
    obtain ⟨gap, s, after⟩ := o
    dsimp only at ihParams ihBody ihRest hsetParams hsetBody hspans hjoint hcs
    -- Each of the three parts is a text of its own, which starts behind no identifier.
    have hbefore (xs : List Char) : endsJoined (front ++ (asyncPart gap ++ sigil :: xs)) = endsJoined (sigil :: xs) := by
      rw [endsJoined_append _ (by simp), endsJoined_append _ (List.cons_ne_nil _ _)]
    have hspan : endsJoined (sigil :: s.span) = endsJoined s.span := endsJoined_append [sigil] hspans.span_ne_nil
    have hparams := ihParams (front ++ (asyncPart gap ++ sigil :: s.lead))
      (s.middle ++ (s.body.text ++ (s.close ++ (after ++ back))))
      (place + (asyncPart gap).length + 1 + s.lead.length) false
      (by simp [hsource, hcs, Shorthand.span]) (by simp [hplace]; omega)
      fun hhead => ⟨(hbefore _).trans (hsetParams fun hnil => by simp [hnil] at hhead), rfl⟩
    have hbody := ihBody (front ++ (asyncPart gap ++ sigil :: (s.lead ++ s.params ++ s.middle)))
      (s.close ++ (after ++ back))
      (place + (asyncPart gap).length + 1 + s.lead.length + s.params.length + s.middle.length) false
      (by simp [hsource, hcs, Shorthand.span]) (by simp [hplace]; omega)
      fun hhead => ⟨(hbefore _).trans (hsetBody hhead), rfl⟩
    have hafter := ihRest (front ++ (asyncPart gap ++ sigil :: s.span)) back
      (place + (asyncPart gap).length + 1 + s.span.length) false
      (by simp [hsource, hcs]) (by simp [hplace]; omega)
      fun hhead => ⟨(hbefore _).trans (hspan.trans (hspans.endsJoined_span hhead)), hspans.endsJoined_span hhead⟩
    rw [← hsource, ← hplace] at hjoint
    rw [read_of_some hcode ho, template, attempts]
    simp only [Template.joints_append, Shorthand.joints_template, Shorthand.joinsAfter_template,
      List.filterMap_cons, List.filterMap_append, hjoint, hparams, hbody, hafter]
    cases s.name.isSome <;> simp
  | leftover k joined cs hcode hread ih =>
    rw [hread]
    exact ih (front ++ [sigil]) back (place + 1) true (by simp [hsource]) (by simp [hplace])
      fun _ => ⟨endsJoined_concat front sigil, rfl⟩
  | step k joined c cs hs hread ih =>
    have hne : (firstStep k c cs).text ≠ [] := fun hnil => by simpa [hnil] using firstStep_head k c cs
    have hcs := firstStep_append k c cs
    rw [hread, template, attempts, Template.joints_append, Template.joints_literal,
      Template.joinsAfter_literal _ hne, List.nil_append]
    refine ih (front ++ (firstStep k c cs).text) back _ _ ?_ (by simp [hplace])
      fun _ => ⟨endsJoined_append front hne, rfl⟩
    rw [hsource, ← hcs]
    simp only [List.append_assoc]

end Outline

/-! ## Declarations -/

namespace Scan

/-- A scan of a text comes to the sigil of a named shorthand. -/
structure Meets (w : Keyword) (place : Nat) (cs : List Char) (t : Stage) (s : Shorthand)
    (rest after : List Char) : Prop where
  reached : ∃ n, rounds? w n (.begin place cs) = some t
  code : t.state.context.isCode = true
  head : t.rest = sigil :: rest
  read : Shorthand.read? rest = some (s, after)
  named : s.name.isSome = true

/-- A named shorthand is declared behind a front of the text: the keyword and a blank follow in the output on
what the scan keeps there. That goes on into the keyword if and only if the front ends in a character that an
identifier goes on with, and not in a word `async` that is taken back. -/
structure Declares (w : Keyword) (place : Nat) (cs front : List Char) (t : Stage) (s : Shorthand)
    (rest : List Char) : Prop where
  source : cs = front ++ sigil :: rest
  stands : t.place = place + front.length
  attempt : ∃ isAsync, ⟨t.place, .shorthand isAsync s⟩ ∈ (run w place .initial cs).attempts ∧
    (isAsync = true ↔ AsyncBefore cs front)
  output : ∃ more, (run w place .initial cs).output = t.state.cut ++ (w.name.toList ++ ' ' :: more)
  joint : endsJoined t.state.cut = true ↔ endsJoined front = true ∧ ¬AsyncBefore cs front

/-- What is put out while nothing is pending stays. -/
theorem exists_run_append (w : Keyword) (place : Nat) (cs : List Char) {σ : State} (hσ : σ.context.Settled)
    (hpending : σ.pending = none) : ∃ more : Scan, run w place σ cs = σ.done ++ more :=
  ⟨_, run_eq w hσ (.free hpending) (Nat.add_zero place).symm⟩

theorem Meets.declares {w : Keyword} {place : Nat} {cs : List Char} {t : Stage} {s : Shorthand}
    {rest after : List Char} (h : Meets w place cs t s rest after) :
    ∃ front, Declares w place cs front t s rest := by
  obtain ⟨n, hrounds⟩ := h.reached
  obtain ⟨front, htracks⟩ := exists_tracks hrounds h.head
  have hasync := htracks.pending_iff h.head
  have hcut := ((Bounded.begin place cs).of_rounds? hrounds).endsJoined_cut h.head
  -- The round puts out the standard form, which no later one takes back.
  obtain ⟨params, body, hround⟩ : ∃ params body, round? w t.place t.state t.rest =
      some ⟨t.place + 1 + s.span.length, t.state.emit w t.place s params body, after⟩ := by
    rw [h.head, round?, if_pos (by simp [h.code]), h.read]
    exact ⟨_, _, rfl⟩
  obtain ⟨more, hmore⟩ : ∃ more : Scan, run w place .initial cs =
      (t.state.emit w t.place s params body).done ++ more := by
    have hrun : run w place .initial cs = _ := (run_of_rounds? hrounds).trans (run_of_round? hround)
    rw [hrun]
    exact exists_run_append w _ after htracks.reads.settled rfl
  obtain ⟨behind, hbehind⟩ := s.exists_standard t.state.pending.isSome h.named w params.output body.output
  refine ⟨front, h.head ▸ htracks.reads.source, htracks.place, ⟨t.state.pending.isSome, ?_, hasync⟩,
    ⟨behind ++ more.output, ?_⟩, ?_⟩
  · simp [hmore, append_eq, State.emit]
  · rw [hmore, append_eq, State.emit, hbehind]
    simp
  · rw [hcut, ← hasync, htracks.joined, endsJoined]
    cases t.state.pending <;> simp

/-- The output of a source text with the places of its declarations marked. The character before a keyword goes
on with an identifier just if the one before the sigil in the source does, and no word `async` is taken back. -/
structure Marked (source : String) (t : Template) (attempts : List Attempt) : Prop where
  holes : t.holes = attempts.filterMap Attempt.declared?
  text (w : Keyword) : expandText w source = String.ofList (t.fill w)
  scan (w : Keyword) : (ofText w source.toList).attempts = attempts
  joint (before : Template) (place : Nat) (after : Template) : t = before ++ .hole place :: after →
    after.head? = some (.letter ' ') ∧ ∃ isAsync s,
      ⟨place, .shorthand isAsync s⟩ ∈ attempts ∧ s.name.isSome = true ∧
      ∀ w, endsJoined (before.fill w) = (!isAsync && endsJoined (source.toList.take place))

theorem exists_marked (source : String) : ∃ t attempts, Marked source t attempts := by
  refine ⟨(Outline.ofText source.toList).template 0, (Outline.ofText source.toList).attempts 0,
    Outline.holes_template _ 0, fun w => ?_, fun w => ?_, fun before place after h => ?_⟩
  · rw [Outline.fill_template, expandText, expand_eq_render]
  · rw [ofText_eq]
  · have hspaced : Template.Spaced (before ++ .hole place :: after) := h ▸ Outline.spaced_template _ 0
    refine ⟨hspaced.head_eq, ?_⟩
    have hjoints : ((Outline.ofText source.toList).template 0).joints false =
        ((Outline.ofText source.toList).attempts 0).filterMap (Attempt.joint? source.toList) :=
      Outline.joints_template_read [] [] 0 false (List.append_nil _).symm rfl fun _ => ⟨rfl, rfl⟩
    have hmem := Template.mem_joints false before after place
    rw [← h, hjoints] at hmem
    obtain ⟨⟨p, outcome⟩, ha, hjoint⟩ := List.mem_filterMap.mp hmem
    cases outcome with
    | leftover => simp [Attempt.joint?] at hjoint
    | shorthand isAsync s =>
      obtain ⟨hname, hjoint⟩ := Option.ite_none_right_eq_some.mp hjoint
      obtain ⟨rfl, hjoined⟩ := Prod.mk.inj (Option.some.inj hjoint)
      exact ⟨isAsync, s, ha, hname, fun w => (Template.endsJoined_fill w before).trans hjoined.symm⟩

/-- Where a declaration is put out, in the text and in any parameters or bodies, what its keyword is put behind
goes on into it if and only if an identifier ends right before the sigil in the source, and is not a word `async`
that is taken back. So it is in the output of the whole text too, for all declarations and with every keyword. -/
theorem keyword_joints (source : String) : (∃ t attempts, Marked source t attempts) ∧
    ∀ w place cs t s rest after, Meets w place cs t s rest after → ∃ front, Declares w place cs front t s rest :=
  ⟨exists_marked source, fun _ _ _ _ _ _ _ h => h.declares⟩

/-- Behind a word `async`, which is taken back. -/
theorem keyword_joints_async : ∃ front, Declares .let_ 0 "async ƒ f(a) b".toList front
    ⟨6, ⟨.start, false, some 0, ⟨"async ".toList, []⟩⟩, "ƒ f(a) b".toList⟩
    ⟨false, some ['f'], " f(".toList, ['a'], ") ".toList, .expression ['b'], []⟩ " f(a) b".toList :=
  (keyword_joints "async ƒ f(a) b").2 _ _ _ _ _ _ []
    ⟨⟨2, by decide +kernel⟩, rfl, by decide, by decide +kernel, rfl⟩

/-- The sigil ends the word before it, and the keyword goes on with it. -/
theorem keyword_joined : ∃ t s, Meets .var 0 "xƒ f(a) b".toList t s " f(a) b".toList [] ∧
    endsJoined t.state.cut = true ∧ expandText .var "xƒ f(a) b" = "xvar f = (a) => b;" :=
  ⟨⟨1, ⟨.start, true, none, ⟨['x'], []⟩⟩, "ƒ f(a) b".toList⟩,
    ⟨false, some ['f'], " f(".toList, ['a'], ") ".toList, .expression ['b'], []⟩,
    ⟨⟨1, by decide +kernel⟩, rfl, by decide, by decide +kernel, rfl⟩, by decide, by decide +kernel⟩

end Scan

end Florin
