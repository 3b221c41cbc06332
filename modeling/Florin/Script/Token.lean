import Florin.Script.Fault
import Florin.Script.Word
import Florin.Text.Bytes

/-! # Tokens of a script

The next token of a text, after the blanks and comments before it. A slash is a punctuator, and who
asks for an expression reads it again as a regular expression; the parts of a template are read one
by one. Some faults leave a token to go on with, others are the token themselves.
-/
namespace Florin.Script
open Text

/-- A part of a template up to its end or up to a hole; a fault in its escapes counts unless the
template is tagged. -/
structure TemplatePart where
  ends : Bool
  escapeFault : Option Fault
  deriving DecidableEq, Repr

/-- A token; a string is known by the text between its quotes, as it is written there. -/
inductive Token where
  | word (text : List Char)
  | punct (text : List Char)
  | number
  | wholeNumber
  | string (text : List Char)
  | template (part : TemplatePart)
  | fault (f : Fault)
  | eof
  deriving DecidableEq, Repr

/-- A token with its faults, the text from its start on, the text after it, and whether a line ends
before it. -/
structure Lexeme where
  token : Token
  faults : List Fault
  start : Place
  rest : List Char
  afterBreak : Bool
  deriving Repr

def isLineBreak (c : Char) : Bool := c = '\n' || c = '\r' || c = '\u2028' || c = '\u2029'

/-- Blanks of a script, of which a byte order mark is one. -/
def isSpace (c : Char) : Bool := isBlank c || c = '\uFEFF'

structure Scan where
  rest : List Char
  faults : List Fault
  deriving DecidableEq, Repr

def blockCommentRest? : List Char → Option (List Char × Bool)
  | [] => none
  | '*' :: '/' :: cs => some (cs, false)
  | c :: cs => (blockCommentRest? cs).map fun r => (r.1, r.2 || isLineBreak c)

def lineRest (cs : List Char) : List Char := cs.dropWhile fun c => !isLineBreak c

/-- Skips blanks and comments; says whether a line ends in them. The fuel bounds how many of them
there are. -/
def skipTrivia : Nat → Bool → List Fault → List Char → Scan × Bool
  | 0, afterBreak, faults, cs => (⟨cs, faults⟩, afterBreak)
  | fuel + 1, afterBreak, faults, cs =>
    match cs with
    | '/' :: '/' :: rest => skipTrivia fuel afterBreak faults (lineRest rest)
    | '/' :: '*' :: rest =>
      match blockCommentRest? rest with
      | some (rest, breaks) => skipTrivia fuel (afterBreak || breaks) faults rest
      | none =>
        (⟨[], faults ++ [.lexical .unterminatedComment []]⟩, afterBreak || rest.any isLineBreak)
    | '<' :: '!' :: '-' :: '-' :: rest =>
      skipTrivia fuel afterBreak (faults ++ [.lexical .markupComment cs]) (lineRest rest)
    | '-' :: '-' :: '>' :: rest =>
      if !afterBreak then (⟨cs, faults⟩, afterBreak)
      else skipTrivia fuel true (faults ++ [.lexical .markupComment cs]) (lineRest rest)
    | c :: rest =>
      if isSpace c then skipTrivia fuel (afterBreak || isLineBreak c) faults rest
      else (⟨cs, faults⟩, afterBreak)
    | [] => (⟨[], faults⟩, afterBreak)

def digitOf? (radix : Nat) (c : Char) : Option Nat :=
  let value :=
    if Identifier.isAsciiDigit c then c.toNat - '0'.toNat
    else if 'a' ≤ c && c ≤ 'z' then c.toNat - 'a'.toNat + 10
    else if 'A' ≤ c && c ≤ 'Z' then c.toNat - 'A'.toNat + 10
    else radix
  if value < radix then some value else none

def isDigit (radix : Nat) (c : Char) : Bool := (digitOf? radix c).isSome

def hexDigits (most : Nat) (cs : List Char) : List Char × Nat :=
  let ds := (cs.take most).takeWhile (isDigit 16)
  (ds, ds.foldl (fun n d => 16 * n + (digitOf? 16 d).getD 0) 0)

def numberedEscapeRest (cs : List Char) : Except LexicalFault (List Char) :=
  match cs with
  | '\x7b' :: cs =>
    let (ds, value) := hexDigits cs.length cs
    if ds.isEmpty then .error (.numberedEscape "1-6 hex characters")
    else if value > 0x10FFFF then
      .error (.numberedEscape "1-6 hex characters in the range 0 to 10FFFF.")
    else
      match cs.drop ds.length with
      | '\x7d' :: rest => .ok rest
      | _ => .error .escapeEnd
  | _ =>
    if (hexDigits 4 cs).1.length < 4 then .error (.numberedEscape "4 hex characters")
    else .ok (cs.drop 4)

/-- The text after octal digits, of which the value fits a byte. -/
def octalRest (cs : List Char) : List Char :=
  let ds := (cs.take 3).takeWhile (isDigit 8)
  cs.drop (if cs.head?.any ('3' < ·) then min ds.length 2 else ds.length)

/-- The text after an escape of which the backslash, at the given place, is read. A template has no
octal ones. -/
def escapeRest (inTemplate : Bool) (place : Place) (cs : List Char) : Except Fault Scan :=
  match cs with
  | [] => .error (.lexical .stringEscape place)
  | '\r' :: '\n' :: rest => .ok ⟨rest, []⟩
  | 'x' :: rest =>
    if (hexDigits 2 rest).1.length < 2 then
      .error (.lexical (.numberedEscape "2 hex characters") place)
    else .ok ⟨rest.drop 2, []⟩
  | 'u' :: rest =>
    match numberedEscapeRest rest with
    | .ok rest => .ok ⟨rest, []⟩
    | .error f => .error (.lexical f place)
  | c :: rest =>
    if !isDigit 8 c || (c = '0' && !rest.head?.any (isDigit 8)) then .ok ⟨rest, []⟩
    else
      let f := Fault.lexical (.leadingZero true) place
      if inTemplate then .error f else .ok ⟨octalRest cs, [f]⟩

/-- Reads a string of which the opening quote is read. Without a closing quote it ends with its
line. The fuel bounds the number of characters. -/
def stringRest (quote : Char) (place : Place) : Nat → List Char → Except Fault Scan
  | 0, cs => .ok ⟨cs, []⟩
  | fuel + 1, cs =>
    match cs with
    | [] => .ok ⟨[], [.lexical .unterminatedString place]⟩
    | c :: rest =>
      if c = quote then .ok ⟨rest, []⟩
      else if c = '\n' || c = '\r' then .ok ⟨cs, [.lexical .unterminatedString place]⟩
      else if c = '\\' then do
        let escape ← escapeRest false cs rest
        let after ← stringRest quote place fuel escape.rest
        return ⟨after.rest, escape.faults ++ after.faults⟩
      else stringRest quote place fuel rest

def templatePart? (fault : Option Fault) : Nat → List Char → Option (TemplatePart × List Char)
  | 0, _ => none
  | fuel + 1, cs =>
    match cs with
    | [] => none
    | '\x60' :: rest => some (⟨true, fault⟩, rest)
    | '$' :: '\x7b' :: rest => some (⟨false, fault⟩, rest)
    | '\\' :: rest =>
      match escapeRest true cs rest with
      | .ok escape => templatePart? fault fuel escape.rest
      | .error f => templatePart? (fault.or (some f)) fuel (rest.drop 1)
    | _ :: rest => templatePart? fault fuel rest

def templateAt (cs : List Char) : Token × Scan :=
  let rest := cs.drop 1
  match templatePart? none (rest.length + 1) rest with
  | some (part, rest) => (.template part, ⟨rest, []⟩)
  | none => (.fault (.lexical .unterminatedTemplate cs), ⟨[], []⟩)

def regexBodyRest? (inClass : Bool) : List Char → Option (List Char)
  | [] => none
  | ['\\'] => none
  | '\\' :: c :: cs => if isLineBreak c then none else regexBodyRest? inClass cs
  | c :: cs =>
    if isLineBreak c then none
    else if c = '[' then regexBodyRest? true cs
    else if c = ']' then regexBodyRest? false cs
    else if c = '/' && !inClass then some cs
    else regexBodyRest? inClass cs

/-- The punctuators, the longer ones before those that they start with. -/
def punctuators : List (List Char) :=
  [">>>=", "...", "===", "!==", "**=", "<<=", ">>=", ">>>", "&&=", "||=", "??=",
    "=>", "==", "!=", "<=", ">=", "&&", "||", "??", "?.", "++", "--", "+=", "-=", "*=", "/=", "%=",
    "&=", "|=", "^=", "<<", ">>", "**",
    "\x7b", "\x7d", "(", ")", "[", "]", ";", ",", "<", ">", "+", "-", "*", "/", "%", "&", "|", "^",
    "!", "~", "?", ":", "=", ".", "@", "#"].map String.toList

/-- A question mark and a dot before a digit are two punctuators. -/
def punctuator? (cs : List Char) : Option (List Char) :=
  (punctuators.find? fun p => p.isPrefixOf cs).map fun p =>
    if p = ['?', '.'] && (cs.drop 2).head?.any Identifier.isAsciiDigit then ['?'] else p

def digitRun (radix : Nat) (cs : List Char) : List Char :=
  cs.takeWhile fun c => isDigit radix c || c = '_'

def separatorsFit (radix : Nat) : List Char → Bool
  | '_' :: cs => cs.head?.any (isDigit radix) && separatorsFit radix cs
  | c :: cs => !isDigit radix c || separatorsFit radix cs
  | [] => true

/-- Takes digits with separators; a separator at a wrong place is a fault at the first digit. -/
def digitsRest (radix : Nat) (cs : List Char) : Scan :=
  ⟨cs.drop (digitRun radix cs).length,
    if separatorsFit radix cs then [] else [.lexical .separator cs]⟩

def numberEnd (s : Scan) : Token × Scan :=
  match s.rest with
  | c :: _ =>
    if isWordStart c then (.fault (.lexical .identifierAfterNumber s.rest), s)
    else (.number, s)
  | [] => (.number, s)

def radixNumberAt (radix : Nat) (cs : List Char) : Token × Scan :=
  let body := cs.drop 2
  let s := digitsRest radix body
  if !(digitRun radix body).any (isDigit radix) then
    (.fault (.lexical (.digit radix) body), s)
  else
    match s.rest with
    | 'n' :: rest => (.wholeNumber, ⟨rest, s.faults⟩)
    | _ => numberEnd s

def exponentAt (s : Scan) : Token × Scan :=
  match s.rest with
  | c :: rest =>
    if c ≠ 'e' && c ≠ 'E' then numberEnd s
    else
      match rest with
      | [] => (.fault (.lexical .exponent []), ⟨[], s.faults⟩)
      | d :: more =>
        let body := if d = '+' || d = '-' then more else rest
        let e := digitsRest 10 body
        let s := Scan.mk e.rest (s.faults ++ e.faults)
        if !(digitRun 10 body).any (isDigit 10) then (.fault (.lexical (.digit 10) body), s)
        else numberEnd s
  | [] => numberEnd s

def fractionAt (s : Scan) : Token × Scan :=
  match s.rest with
  | '.' :: rest =>
    let f := digitsRest 10 rest
    exponentAt ⟨f.rest, s.faults ++ f.faults⟩
  | _ => exponentAt s

/-- A number at the head of a text that starts with a digit, or a dot and a digit. More digits after
a zero are octal ones unless there is a greater one among them. -/
def numberAt (cs : List Char) : Token × Scan :=
  match cs with
  | '0' :: 'x' :: _ | '0' :: 'X' :: _ => radixNumberAt 16 cs
  | '0' :: 'o' :: _ | '0' :: 'O' :: _ => radixNumberAt 8 cs
  | '0' :: 'b' :: _ | '0' :: 'B' :: _ => radixNumberAt 2 cs
  | _ =>
    let run := digitRun 10 cs
    let s := digitsRest 10 cs
    if cs.head? = some '0' && 1 < run.length then
      let isOctal := !run.any fun c => c = '8' || c = '9'
      let s := Scan.mk s.rest (s.faults ++ [.lexical (.leadingZero isOctal) cs])
      if isOctal then numberEnd s else fractionAt s
    else
      match s.rest with
      | 'n' :: rest => if run.isEmpty then fractionAt s else (.wholeNumber, ⟨rest, s.faults⟩)
      | _ => fractionAt s

def wordLength : Nat → List Char → Nat
  | 0, _ => 0
  | fuel + 1, cs =>
    match cs with
    | '\\' :: 'u' :: rest =>
      match numberedEscapeRest rest with
      | .ok after => 2 + (rest.length - after.length) + wordLength fuel after
      | .error _ => 0
    | c :: rest => if isWordPart c then 1 + wordLength fuel rest else 0
    | [] => 0

def escapedWordAt (cs : List Char) : Token × Scan :=
  match cs with
  | '\\' :: 'u' :: rest =>
    match numberedEscapeRest rest with
    | .ok _ =>
      let n := wordLength cs.length cs
      (.word (cs.take n), ⟨cs.drop n, []⟩)
    | .error f => (.fault (.lexical f cs), ⟨rest, []⟩)
  | _ => (.fault (.lexical .identifierEscape cs), ⟨cs.drop 1, []⟩)

def tokenAt (cs : List Char) : Token × Scan :=
  match cs with
  | [] => (.eof, ⟨[], []⟩)
  | c :: rest =>
    if isWordStart c then
      let n := wordLength cs.length cs
      (.word (cs.take n), ⟨cs.drop n, []⟩)
    else if c = '\\' then escapedWordAt cs
    else if Identifier.isAsciiDigit c || (c = '.' && rest.head?.any Identifier.isAsciiDigit) then
      numberAt cs
    else if c = '\'' || c = '"' then
      match stringRest c cs cs.length rest with
      | .ok s => (.string (rest.take (rest.length - s.rest.length - 1)), s)
      | .error f => (.fault f, ⟨[], []⟩)
    else if c = '\x60' then templateAt cs
    else
      match punctuator? cs with
      | some p => (.punct p, ⟨cs.drop p.length, []⟩)
      | none => (.fault (.lexical (.unexpectedCharacter c) cs), ⟨rest, []⟩)

def lexeme (cs : List Char) : Lexeme :=
  let (trivia, afterBreak) := skipTrivia (cs.length + 1) false [] cs
  let (token, s) := tokenAt trivia.rest
  ⟨token, trivia.faults ++ s.faults, trivia.rest, s.rest, afterBreak⟩

def shownWords : List (List Char) :=
  ["abstract", "accessor", "any", "as", "assert", "asserts", "async", "await", "bigint", "boolean",
    "break", "case", "catch", "class", "const", "continue", "debugger", "declare", "default",
    "delete", "do", "else", "enum", "export", "extends", "false", "finally", "for", "from",
    "function", "get", "global", "if", "implements", "import", "in", "infer", "instanceof",
    "interface", "intrinsic", "is", "keyof", "let", "meta", "namespace", "never", "new", "null",
    "number", "object", "of", "package", "private", "protected", "public", "readonly", "require",
    "return", "satisfies", "set", "static", "string", "super", "switch", "symbol", "target", "this",
    "throw", "true", "try", "type", "typeof", "undefined", "unique", "unknown", "using", "var",
    "void", "while", "with", "yield"].map String.toList

def Token.shown : Token → List Char
  | .word text => if shownWords.contains text then text else "ident".toList
  | .punct text => text
  | .number => "numeric literal".toList
  | .wholeNumber => "bigint literal".toList
  | .string _ => "string literal".toList
  | .template _ => "template token".toList
  | .fault _ => "<lexing error>".toList
  | .eof => "<eof>".toList

end Florin.Script
