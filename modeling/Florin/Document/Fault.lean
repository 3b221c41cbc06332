import Florin.Text.Quoted

/-! # Faults of a document

What is wrong with a document: it is not well formed, it ends too early, or it holds something
else than what is asked for.
-/
namespace Florin.Document
open Text

/-- What a value is, as far as it has to be read to say so. -/
inductive Shape where
  | null
  | boolean (b : Bool)
  | integer (n : Int)
  | decimal (text : List Char)
  | string (cs : List Char)
  | sequence
  | map
  deriving DecidableEq, Repr

def Shape.describe : Shape → List Char
  | .null => "null".toList
  | .boolean b => "boolean \x60".toList ++ (toString b).toList ++ ['\x60']
  | .integer n => "integer \x60".toList ++ (toString n).toList ++ ['\x60']
  | .decimal text => "floating point \x60".toList ++ text ++ ['\x60']
  | .string cs => "string ".toList ++ Quoted.encode cs
  | .sequence => "sequence".toList
  | .map => "map".toList

inductive Mismatch where
  | wrongShape (found : Shape) (expected : String)
  | unknownWord (word : List Char) (known : List String)
  | repeatedField (name : String)
  deriving DecidableEq, Repr

def Mismatch.message : Mismatch → String
  | .wrongShape found expected =>
    "invalid type: " ++ String.ofList found.describe ++ ", expected " ++ expected
  | .unknownWord word known =>
    "unknown variant \x60" ++ String.ofList word ++ "\x60, expected one of " ++
      String.intercalate ", " (known.map fun k => "\x60" ++ k ++ "\x60")
  | .repeatedField name => "duplicate field \x60" ++ name ++ "\x60"

inductive Part where
  | list
  | object
  | string
  | value
  deriving DecidableEq, Repr

def Part.name : Part → String
  | .list => "a list"
  | .object => "an object"
  | .string => "a string"
  | .value => "a value"

inductive Malformation where
  | value
  | word
  | colon
  | listEnd
  | objectEnd
  | key
  | number
  | range
  | control
  | escape
  | escapeEnd
  | loneSurrogate
  | trailingComma
  | trailing
  deriving DecidableEq, Repr

def Malformation.message : Malformation → String
  | .value => "expected value"
  | .word => "expected ident"
  | .colon => "expected \x60:\x60"
  | .listEnd => "expected \x60,\x60 or \x60]\x60"
  | .objectEnd => "expected \x60,\x60 or \x60\x7d\x60"
  | .key => "key must be a string"
  | .number => "invalid number"
  | .range => "number out of range"
  | .control => "control character (\\u0000-\\u001F) found while parsing a string"
  | .escape => "invalid escape"
  | .escapeEnd => "unexpected end of hex escape"
  | .loneSurrogate => "lone leading surrogate in hex escape"
  | .trailingComma => "trailing comma"
  | .trailing => "trailing characters"

inductive Cause where
  | malformed (m : Malformation)
  | truncated (p : Part)
  | mismatch (m : Mismatch)
  deriving DecidableEq, Repr

def Cause.message : Cause → String
  | .malformed m => m.message
  | .truncated p => "EOF while parsing " ++ p.name
  | .mismatch m => m.message

/-- A place in a document: its line from one, and the bytes before it on that line. -/
structure Position where
  line : Nat
  column : Nat
  deriving DecidableEq, Repr

namespace Position

def start : Position := ⟨1, 0⟩

def after (p : Position) (c : Char) : Position :=
  if c = '\n' then ⟨p.line + 1, 0⟩ else ⟨p.line, p.column + c.utf8Size⟩

def afterBytes (p : Position) : Nat → List Char → Position
  | _, [] => p
  | n, c :: cs =>
    if n = 0 then p
    else if c ≠ '\n' && n < c.utf8Size then ⟨p.line, p.column + n⟩
    else (p.after c).afterBytes (n - c.utf8Size) cs

end Position

structure Fault where
  cause : Cause
  position : Position
  deriving DecidableEq, Repr

def Fault.message (f : Fault) : String :=
  f.cause.message ++ " at line " ++ toString f.position.line ++ " column " ++
    toString f.position.column

end Florin.Document
