import Florin.Text.Blank
import Florin.Text.HiddenRanges

/-! # Quoted texts

A text in double quotes and a character in single ones, as messages show them. Such a quote inside
and a backslash are marked by a backslash, and a character that shows nothing of its own is written
by name or by number.
-/
namespace Florin.Text.Quoted

def escape (quote c : Char) : List Char :=
  if c = quote then ['\\', quote]
  else if c = '\\' then ['\\', '\\']
  else if c = '\n' then ['\\', 'n']
  else if c = '\r' then ['\\', 'r']
  else if c = '\t' then ['\\', 't']
  else if c = '\x00' then ['\\', '0']
  else if inRanges hiddenRanges c then
    ['\\', 'u', '\x7b'] ++ Nat.toDigits 16 c.toNat ++ ['\x7d']
  else [c]

def encode (cs : List Char) : List Char := '"' :: cs.flatMap (escape '"') ++ ['"']

def encodeChar (c : Char) : List Char := '\'' :: escape '\'' c ++ ['\'']

end Florin.Text.Quoted
