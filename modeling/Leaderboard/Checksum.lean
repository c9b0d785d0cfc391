import Leaderboard.Text.Hex

/-!
# Rolling checksums

The checksum of a byte string is its 64-bit cyclic redundancy code under the
polynomial of ECMA-182: the register starts at zero, bits enter at the high end,
most significant bit of each byte first, and the register itself is the answer.

A `Checksum` is the register after the bytes written so far, so it can be read
at any point and written on.  `write_append` says that how the bytes are cut
into writes does not matter.
-/

namespace Leaderboard

/-- A checksum register. -/
structure Checksum where
  /-- The remainder of the bytes written so far. -/
  register : UInt64 := 0
deriving DecidableEq, Repr

namespace Checksum

/-- The polynomial, without its leading term. -/
def polynomial : UInt64 := 0x42F0E1EBA9EA3693

/-- Shifts the register by one bit, and reduces it if a bit fell out. -/
def shift (r : UInt64) : UInt64 :=
  if r >>> 63 = 1 then (r <<< 1) ^^^ polynomial else r <<< 1

/-- Shifts the register by a number of bits. -/
def shiftBy : Nat → UInt64 → UInt64
  | 0, r => r
  | n + 1, r => shiftBy n (shift r)

/-- The register after one more byte. -/
def step (r : UInt64) (b : UInt8) : UInt64 :=
  shiftBy 8 (r ^^^ (b.toUInt64 <<< 56))

/-- The register before any byte. -/
def initial : Checksum := {}

/-- The register after more bytes. -/
def write (c : Checksum) (bs : Bytes) : Checksum := ⟨bs.foldl step c.register⟩

/-- The checksum of a byte string. -/
def of (bs : Bytes) : UInt64 := (initial.write bs).register

/-- A register is shown as its value in sixteen digits. -/
def render (c : Checksum) : String := "Hasher(" ++ Hex.word c.register ++ ")"

@[simp] theorem write_nil (c : Checksum) : c.write [] = c := rfl

theorem write_append (c : Checksum) (a b : Bytes) : c.write (a ++ b) = (c.write a).write b := by
  simp [write]

example : of [0x68, 0x65, 0x6c, 0x6c, 0x6f, 0x20] = 0x4235c38bfc19c6f1 := by decide +kernel

end Checksum

end Leaderboard
