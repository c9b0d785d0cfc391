import Leaderboard.Text.Hex
import Leaderboard.Text.Standalone

/-!
# Quoted text

A text is shown between double quotes.  The double quote, the backslash, NUL,
tab, carriage return and newline have an escape of their own.  Any other
character that does not stand alone is written `\u{N}` with the digits of its
code point, and the rest stand for themselves.  The single quote is one of
them.
-/

namespace Leaderboard

namespace Quoted

/-- How one character is shown. -/
def char (c : Char) : List Char :=
  if c = '\x00' then ['\\', '0']
  else if c = '\t' then ['\\', 't']
  else if c = '\r' then ['\\', 'r']
  else if c = '\n' then ['\\', 'n']
  else if c = '"' then ['\\', '"']
  else if c = '\\' then ['\\', '\\']
  else if Standalone c then [c]
  else ['\\', 'u', '\x7b'] ++ Hex.digits c.toNat ++ ['\x7d']

/-- A text between double quotes. -/
def text (s : String) : String :=
  String.ofList ('"' :: s.toList.flatMap char ++ ['"'])

example : text "it's \"x\"\n" = "\"it's \\\"x\\\"\\n\"" := by decide +kernel
example : text "a\u200bb" = "\"a\\u\x7b200b\x7db\"" := by decide +kernel

end Quoted

end Leaderboard
