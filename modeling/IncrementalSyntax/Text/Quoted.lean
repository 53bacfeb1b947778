import IncrementalSyntax.Text.Basic
import IncrementalSyntax.Text.Visible

/-!
Texts in quotes. The quote and the backslash get a backslash before them, four control characters
have a short form, and every other character that cannot be shown by itself is written as its
hexadecimal number in braces. Each character is written on its own, so a written text can be read
back character by character.
-/
namespace IncrementalSyntax

namespace Quoted

/-- The letter after the backslash in the short form of a character. -/
def shortForm? (c : Char) : Option Char :=
  if c = '"' then some '"'
  else if c = '\\' then some '\\'
  else if c = '\n' then some 'n'
  else if c = '\r' then some 'r'
  else if c = '\t' then some 't'
  else if c = '\x00' then some '0'
  else none

/-- The number of a character in lower-case hexadecimal digits, without leading zeros. -/
def hex (c : Char) : Text := Nat.toDigits 16 c.toNat

def encodeChar (c : Char) : Text :=
  match shortForm? c with
  | some letter => ['\\', letter]
  | none => if isVisible c then [c] else '\\' :: 'u' :: '\x7b' :: hex c ++ ['\x7d']

def encode (t : Text) : Text := '"' :: t.flatMap encodeChar ++ ['"']

end Quoted

def quoted (s : String) : String := String.ofList (Quoted.encode s.toList)

end IncrementalSyntax
