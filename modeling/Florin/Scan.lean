import Florin.Expansion
import Florin.Text.Bytes

/-! # The expansion as one scan

A single scan copies the text to an output and puts the standard form of a shorthand where it meets one.
Behind a word `async` in code it remembers where in the output the word starts, as long as only blanks
follow: a shorthand takes the word back from there. Parameters and bodies are scanned in the same way,
each from its own start.
-/
namespace Florin
open Text Lexical

inductive Outcome where
  | leftover
  | shorthand (isAsync : Bool) (s : Shorthand)
  deriving DecidableEq, Repr

/-- The place counts the characters before the sigil in the whole text. -/
structure Attempt where
  place : Nat
  outcome : Outcome
  deriving DecidableEq, Repr

/-- The output of a scan and what became of the sigils that it tried, those of the scans inside of it
included. -/
structure Scan where
  output : List Char
  attempts : List Attempt
  deriving DecidableEq, Repr

namespace Scan

def append (a b : Scan) : Scan := ⟨a.output ++ b.output, a.attempts ++ b.attempts⟩

instance : Append Scan := ⟨append⟩

theorem append_eq (a b : Scan) : a ++ b = ⟨a.output ++ b.output, a.attempts ++ b.attempts⟩ := rfl

theorem append_assoc (a b c : Scan) : a ++ b ++ c = a ++ (b ++ c) := by
  simp only [append_eq, List.append_assoc]

/-- Where a scan stands, and what it has done so far. An offset counts the bytes of the output before a
word `async` that is followed by blanks only. -/
structure State where
  context : Context
  joined : Bool
  pending : Option Nat
  done : Scan
  deriving DecidableEq, Repr

namespace State

def initial : State := ⟨.start, false, none, ⟨[], []⟩⟩

/-- The output without the pending word `async` and what follows it. -/
def cut (σ : State) : List Char :=
  match σ.pending with
  | none => σ.done.output
  | some offset => takeBytes offset σ.done.output

/-- Text is put out as it is; the last character of it says what a word may go on with. -/
def copy (σ : State) (text : List Char) (context : Context) (pending : Option Nat) : State :=
  ⟨context, text.getLast?.any Identifier.isContinue, pending, σ.done ++ ⟨text, []⟩⟩

def copyWord (σ : State) (word : List Char) : State :=
  σ.copy word σ.context (if word = asyncWord then some (byteLength σ.done.output) else none)

def pendingAfter (σ : State) (c : Char) : Option Nat :=
  if σ.context.isCode && isBlank c then σ.pending else none

def copyStep (σ : State) (c : Char) (text : List Char) (context : Context) : State :=
  σ.copy text context (σ.pendingAfter c)

def copySigil (σ : State) (place : Nat) : State :=
  ⟨σ.context, true, none, σ.done ++ ⟨[sigil], [⟨place, .leftover⟩]⟩⟩

/-- The standard form of a shorthand is put out, and what is pending is taken back. -/
def emit (σ : State) (w : Keyword) (place : Nat) (s : Shorthand) (params body : Scan) : State :=
  ⟨σ.context, s.span.getLast?.any Identifier.isContinue, none,
    ⟨σ.cut ++ s.standard w σ.pending.isSome params.output body.output,
      σ.done.attempts ++
        ⟨place, .shorthand σ.pending.isSome s⟩ :: (params.attempts ++ body.attempts)⟩⟩

end State

/-- A sigil ends a word. -/
def isWordChar (c : Char) : Bool := decide (c ≠ sigil) && Identifier.isContinue c

def word? (joined : Bool) : List Char → Option (List Char × List Char)
  | [] => none
  | c :: cs =>
    if !joined && Identifier.isStart c then some (c :: cs.takeWhile isWordChar, cs.dropWhile isWordChar)
    else none

theorem word?_length_lt {joined : Bool} {cs word after : List Char}
    (h : word? joined cs = some (word, after)) : after.length < cs.length := by
  cases cs with
  | nil => simp [word?] at h
  | cons c cs =>
    rw [word?, Option.ite_none_right_eq_some] at h
    obtain ⟨-, rfl⟩ := Prod.mk.inj (Option.some.inj h.2)
    have hle := (List.dropWhile_sublist isWordChar (l := cs)).length_le
    simp only [List.length_cons]
    omega

/-- Scans a text from a state on; the place is that of the head of the text. -/
def run (w : Keyword) (place : Nat) (σ : State) (cs : List Char) : Scan :=
  match cs with
  | [] => σ.done
  | c :: rest =>
    if σ.context.isCode && c = sigil then
      match _h : Shorthand.read? rest with
      | some (s, after) =>
        run w (place + 1 + s.span.length)
          (σ.emit w place s (run w (place + 1 + s.lead.length) .initial s.params)
            (run w (place + 1 + s.lead.length + s.params.length + s.middle.length) .initial s.body.text))
          after
      | none => run w (place + 1) (σ.copySigil place) rest
    else
      -- A word is taken as a whole, so that `async` is not found inside of one.
      match _h : if σ.context.isCode then word? σ.joined (c :: rest) else none with
      | some (word, after) => run w (place + word.length) (σ.copyWord word) after
      | none =>
        match rest with
        | [] => (σ.copyStep c [c] (σ.context.step c none).1).done
        | d :: more =>
          if (σ.context.step c (some d)).2 then
            run w (place + 2) (σ.copyStep c [c, d] (σ.context.step c (some d)).1) more
          else run w (place + 1) (σ.copyStep c [c] (σ.context.step c (some d)).1) (d :: more)
termination_by cs.length
decreasing_by
  · have hle := congrArg List.length (Shorthand.read?_append _h)
    have hparams := s.params_length_le_span
    simp only [List.length_append, List.length_cons] at hle ⊢
    omega
  · have hle := congrArg List.length (Shorthand.read?_append _h)
    have hbody := s.body_length_le_span
    simp only [List.length_append, List.length_cons] at hle ⊢
    omega
  · have hle := congrArg List.length (Shorthand.read?_append _h)
    simp only [List.length_append, List.length_cons] at hle ⊢
    omega
  · simp only [List.length_cons]
    omega
  · exact word?_length_lt (Option.ite_none_right_eq_some.mp _h).2
  all_goals simp only [List.length_cons]; omega

/-- The scan of a source text; a text without a sigil is its own output. -/
def ofText (w : Keyword) (cs : List Char) : Scan :=
  if sigil ∈ cs then run w 0 .initial cs else ⟨cs, []⟩

end Scan

end Florin
