import Leaderboard.Text.Hex

/-!
# Escaped bytes

A byte string is shown as printable ASCII between double quotes.  Tab, carriage
return, newline, both quotes and the backslash have an escape of their own, the
other bytes from space to tilde stand for themselves, and the rest are written
`\xNN`.
-/

namespace Leaderboard

namespace Escaped

/-- How one byte is shown. -/
def byte (b : UInt8) : List Char :=
  if b = 0x09 then ['\\', 't']
  else if b = 0x0d then ['\\', 'r']
  else if b = 0x0a then ['\\', 'n']
  else if b = 0x27 then ['\\', '\'']
  else if b = 0x22 then ['\\', '"']
  else if b = 0x5c then ['\\', '\\']
  else if 0x20 ≤ b ∧ b ≤ 0x7e then [Char.ofNat b.toNat]
  else '\\' :: 'x' :: Hex.byte b

/-- A byte string between double quotes. -/
def bytes (bs : Bytes) : String :=
  String.ofList ('"' :: bs.flatMap byte ++ ['"'])

example : bytes [0x61, 0x00, 0x62] = "\"a\\x00b\"" := by decide +kernel
example : bytes [0x22, 0x27, 0x5c, 0x0a, 0xff] = "\"\\\"\\'\\\\\\n\\xff\"" := by decide +kernel

end Escaped

end Leaderboard
