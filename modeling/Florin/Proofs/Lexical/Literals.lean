import Florin.Proofs.Lexical.Balance

/-! # Literals in a trace

The strings, comments and templates that a scan from code meets, each from the step that leads out of code
through the one that leads back; what lies inside of a template belongs to it. A literal that is still open
where the text ends reaches to there.
-/
namespace Florin.Lexical
open Text

structure Literal where
  text : List Char
  closed : Bool
  deriving DecidableEq, Repr

/-- The literal that a step closes, given its text so far. -/
def closedBy (held : List Char) (s : Step) : List Literal :=
  if s.after.isCode && !s.before.isCode then [⟨held ++ s.text, true⟩] else []

/-- The text of the literal that is open behind a step. -/
def heldBehind (held : List Char) (s : Step) : List Char := if s.after.isCode then [] else held ++ s.text

def literals (held : List Char) : List Step → List Literal
  | [] => if held.isEmpty then [] else [⟨held, false⟩]
  | s :: steps => closedBy held s ++ literals (heldBehind held s) steps

def literalsOf (cs : List Char) : List Literal := literals [] (trace .start cs)

/-- A literal is open where the context is not code. -/
def Holding (k : Context) (held : List Char) : Prop := held = [] ↔ k.isCode = true

theorem holding_nil : Holding .start [] := ⟨fun _ => rfl, fun _ => rfl⟩

section Steps
variable {k : Context} {held xs : List Char} {c : Char} {cs : List Char} {steps : List Step}

theorem Holding.behind (k : Context) (held : List Char) (c : Char) (cs : List Char) :
    Holding (firstStep k c cs).after (heldBehind held (firstStep k c cs)) := by
  have hne : (firstStep k c cs).text ≠ [] := by
    intro hnil
    simpa [hnil] using firstStep_head k c cs
  unfold Holding heldBehind
  split <;> simp_all

/-! ## Texts in a row -/

theorem literals_append (hheld : Holding k held) (hcode : (k.run xs).isCode = true) (steps : List Step) :
    literals held (trace k xs ++ steps) = literals held (trace k xs) ++ literals [] steps := by
  induction k, xs using step_induction generalizing held with
  | nil k =>
    obtain rfl := hheld.mpr hcode
    rfl
  | cons k c cs ih =>
    rw [Context.run_cons] at hcode
    rw [trace_cons, List.cons_append, literals, literals, ih (.behind k held c cs) hcode, List.append_assoc]

theorem literalsOf_append {xs : List Char} (h : Context.start.run xs = .start) (steps : List Step) :
    literals [] (trace .start xs ++ steps) = literalsOf xs ++ literals [] steps :=
  literals_append holding_nil (by rw [h]; rfl) steps

theorem literalsOf_quiet {xs : List Char} (h : Quiet xs) : literalsOf xs = [] := by
  induction xs with
  | nil => rfl
  | cons c xs ih =>
    obtain ⟨hc, hxs⟩ := List.forall_mem_cons.mp h
    rw [literalsOf, trace_cons_of_isQuiet hc]
    exact ih hxs

theorem literals_quiet_append {xs : List Char} (h : Quiet xs) (steps : List Step) :
    literals [] (trace .start xs ++ steps) = literals [] steps := by
  rw [literalsOf_append h.run, literalsOf_quiet h, List.nil_append]

/-- A literal that is open at the end of a text goes on with what follows, as long as that does not lead back
to code. -/
theorem exists_literals_open (hheld : Holding k held) (hopen : (k.run xs).isCode = false)
    (hsteps : ∀ s ∈ steps, s.after.isCode = false) : ∃ front last,
      literals held (trace k xs) = front ++ [⟨last, false⟩] ∧
        literals held (trace k xs ++ steps) = front ++ [⟨last ++ spell steps, false⟩] := by
  induction k, xs using step_induction generalizing held with
  | nil k =>
    have hne : held ≠ [] := fun hnil => by simp [hheld.mp hnil] at hopen
    refine ⟨[], held, by simp [trace, literals, hne], ?_⟩
    rw [trace, List.nil_append, List.nil_append]
    clear hheld hopen
    induction steps generalizing held with
    | nil => simp [literals, hne]
    | cons s steps ih =>
      obtain ⟨hs, hsteps⟩ := List.forall_mem_cons.mp hsteps
      have hnext : literals (held ++ s.text) steps = [⟨held ++ s.text ++ spell steps, false⟩] :=
        ih hsteps (by simp [hne])
      simp [literals, closedBy, heldBehind, hs, hnext]
  | cons k c cs ih =>
    rw [Context.run_cons] at hopen
    obtain ⟨front, last, hfirst, hmore⟩ := ih (.behind k held c cs) hopen
    refine ⟨closedBy held (firstStep k c cs) ++ front, last, ?_, ?_⟩
    · rw [trace_cons, literals, hfirst, List.append_assoc]
    · rw [trace_cons, List.cons_append, literals, hmore, List.append_assoc]

end Steps

/-! ## How literals start and end -/

/-- In code a blank or a semicolon opens no literal, and at the end of one it closes a line comment at most. -/
structure Literal.Sound (l : Literal) : Prop where
  head : ∃ c more, l.text = c :: more ∧ isIdle c = false
  last : l.closed = true → ∀ c ∈ l.text.getLast?, isIdle c = true → c = '\n'

/-- The text so far of a literal starts with what opens it. -/
def Opened (held : List Char) : Prop := ∀ c ∈ held.head?, isIdle c = false

/-- A blank or a semicolon leads back to code only as the line break of a line comment. -/
theorem Context.eq_newline_of_isIdle {k : Context} (hk : k.isCode = false) {c : Char} {next : Option Char}
    (hcode : (k.step c next).1.isCode = true) (hidle : isIdle c = true) : c = '\n' := by
  by_cases hline : k.region = .lineComment
  · by_contra hne
    simp [step, hline, hne, hk] at hcode
  · rw [step_of_isIdle hidle hline, hk] at hcode
    exact absurd hcode (by simp)

section Steps
variable {k : Context} {held : List Char} {c : Char} {cs : List Char}

theorem Opened.behind (hk : k.Settled) (hheld : Holding k held) (h : Opened held) :
    Opened (heldBehind held (firstStep k c cs)) := by
  unfold heldBehind
  split
  · simp [Opened]
  · rename_i hafter
    by_cases hcode : k.isCode = true
    · obtain rfl := hk hcode
      obtain rfl := hheld.mpr hcode
      intro d hd
      rw [List.nil_append, firstStep_head] at hd
      obtain rfl := Option.some.inj hd
      rw [Bool.eq_false_iff]
      intro hidle
      have hs := Context.step_start_of_isQuiet (isQuiet_of_isIdle hidle) cs.head?
      rw [firstStep, hs] at hafter
      exact hafter rfl
    · have hne : held ≠ [] := fun hnil => hcode (hheld.mp hnil)
      intro d hd
      rw [List.head?_append_of_ne_nil _ hne] at hd
      exact h d hd

theorem eq_newline_of_closing (hk : k.isCode = false) (hcode : (firstStep k c cs).after.isCode = true) :
    ∀ d ∈ (firstStep k c cs).text.getLast?, isIdle d = true → d = '\n' := by
  intro d hd hidle
  cases cs with
  | nil =>
    rw [firstStep_nil] at hd hcode
    obtain rfl : c = d := by simpa using hd
    exact Context.eq_newline_of_isIdle hk hcode hidle
  | cons e cs =>
    cases hw : (k.step c (some e)).2 with
    | false =>
      rw [firstStep_of_narrow k c (e :: cs) hw] at hd
      obtain rfl : c = d := by simpa using hd
      exact Context.eq_newline_of_isIdle hk hcode hidle
    | true =>
      rw [firstStep_of_wide k c cs hw] at hd hcode
      obtain rfl : e = d := by simpa using hd
      obtain rfl := Context.eq_slash_of_wide hw hcode
      exact absurd hidle (by decide)

theorem sound_closedBy (hheld : Holding k held) (h : Opened held) :
    ∀ l ∈ closedBy held (firstStep k c cs), l.Sound := by
  unfold closedBy
  split
  · rename_i hclose
    simp only [Bool.and_eq_true, Bool.not_eq_true', firstStep_before] at hclose
    have hne : held ≠ [] := fun hnil => by simp [hheld.mp hnil] at hclose
    have htext : (firstStep k c cs).text ≠ [] := fun hnil => by simpa [hnil] using firstStep_head k c cs
    refine List.forall_mem_singleton.mpr ⟨?_, fun _ d hd => ?_⟩
    · obtain ⟨d, more, rfl⟩ := List.exists_cons_of_ne_nil hne
      exact ⟨d, _, rfl, h d rfl⟩
    · rw [List.getLast?_append_of_ne_nil _ htext] at hd
      exact eq_newline_of_closing hclose.2 hclose.1 d hd
  · simp

end Steps

theorem sound_literals {k : Context} (hk : k.Settled) {held : List Char} (hheld : Holding k held)
    (h : Opened held) (cs : List Char) : ∀ l ∈ literals held (trace k cs), l.Sound := by
  induction k, cs using step_induction generalizing held with
  | nil k =>
    rw [trace, literals]
    split
    · simp
    · rename_i hne
      obtain ⟨d, more, rfl⟩ := List.exists_cons_of_ne_nil (by simpa using hne : held ≠ [])
      exact List.forall_mem_singleton.mpr ⟨⟨d, more, rfl, h d rfl⟩, by simp⟩
  | cons k c cs ih =>
    rw [trace_cons, literals]
    exact List.forall_mem_append.mpr ⟨sound_closedBy hheld h,
      ih (Context.step_settled hk c _) (.behind k held c cs) (h.behind hk hheld)⟩

theorem sound_literalsOf (cs : List Char) : ∀ l ∈ literalsOf cs, l.Sound :=
  sound_literals Context.start_settled holding_nil (by simp [Opened]) cs

end Florin.Lexical
