import Leaderboard.Bytes

/-!
# Hexadecimal text

Checksums and stored ties are shown as lower-case hexadecimal of a fixed width,
and byte strings as two digits a byte.
-/

namespace Leaderboard

namespace Hex

/-- The lower-case digit of a value below sixteen. -/
def digit (n : Nat) : Char :=
  if n < 10 then Char.ofNat (48 + n) else Char.ofNat (87 + n)

/-- The value of a digit, in either case. -/
def value? (c : Char) : Option Nat :=
  if '0' ≤ c ∧ c ≤ '9' then some (c.toNat - 48)
  else if 'a' ≤ c ∧ c ≤ 'f' then some (c.toNat - 87)
  else if 'A' ≤ c ∧ c ≤ 'F' then some (c.toNat - 55)
  else none

/-- The `w` lowest digits of a number, most significant first. -/
def padded : Nat → Nat → List Char
  | 0, _ => []
  | w + 1, n => padded w (n / 16) ++ [digit (n % 16)]

/-- The digits of a number without leading zeros; zero is one digit. -/
def digits (n : Nat) : List Char := padded (max 1 ((n.log2 + 4) / 4)) n

/-- The two digits of a byte. -/
def byte (b : UInt8) : List Char := padded 2 b.toNat

/-- A word in sixteen digits. -/
def word (x : UInt64) : String := String.ofList (padded 16 x.toNat)

/-- A byte string, two digits a byte. -/
def ofBytes (bs : Bytes) : String := String.ofList (bs.flatMap byte)

/-- Reads pairs of digits back into bytes. -/
def readBytes? : List Char → Option Bytes
  | [] => some []
  | [_] => none
  | h :: l :: cs => do
      let high ← value? h
      let low ← value? l
      let rest ← readBytes? cs
      pure (UInt8.ofNat (16 * high + low) :: rest)

/-- The byte string a text of paired digits spells. -/
def toBytes? (s : String) : Option Bytes := readBytes? s.toList

example : word 0x4235c38bfc19c6f1 = "4235c38bfc19c6f1" := by decide +kernel
example : String.ofList (digits 0x200b) = "200b" := by decide +kernel
example : String.ofList (digits 0) = "0" := by decide +kernel
example : String.ofList (digits 16) = "10" := by decide +kernel
example : toBytes? (ofBytes [0, 255, 16]) = some [0, 255, 16] := by decide +kernel

end Hex

end Leaderboard
