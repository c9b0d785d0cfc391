import Leaderboard.Text.Hex

/-!
# Faults of encoded data

The ways in which a byte string can fail to be the encoding of a value, and the
one way in which a value can fail to have an encoding.
-/

namespace Leaderboard

/-- A fault of a value's body, beyond bytes that are missing or not UTF-8. -/
inductive BodyFault where
  /-- Bytes are left over. -/
  | leftover
  /-- A truth value is neither 0 nor 1. -/
  | truth (byte : UInt8)
  /-- The tag of an optional value is neither 0 nor 1. -/
  | tag (byte : UInt8)
  /-- The bytes of a character are not one. -/
  | character
  /-- The index of an alternative is not below their number. -/
  | alternative (index count : Nat)
deriving DecidableEq, Repr

/-- The wording of a body fault. -/
def BodyFault.message : BodyFault → String
  | .leftover => "Slice had bytes remaining after deserialization"
  | .truth byte =>
      "invalid u8 while decoding bool, expected 0 or 1, found " ++ toString byte.toNat
  | .tag byte => "tag for enum is not valid, found " ++ toString byte.toNat
  | .character => "char is not valid"
  | .alternative index count =>
      "invalid value: integer `" ++ toString index ++ "`, expected variant index 0 <= i < "
        ++ toString count

/-- A fault of encoded data. -/
inductive FormatFault where
  /-- The data ends early. -/
  | truncated
  /-- A text is not UTF-8. -/
  | invalidUtf8
  /-- A rank key has too many bytes. -/
  | keyWidth (found : Nat)
  /-- A rank key has no slash between count and tie-breaker. -/
  | missingSeparator
  /-- A record does not carry the checksum of its body. -/
  | checksum (stored computed : UInt64)
  /-- A body cannot be read. -/
  | body (cause : BodyFault)
  /-- A path to be written is not UTF-8. -/
  | pathNotText
  /-- A fault reported in words. -/
  | other (text : String)
deriving DecidableEq, Repr

/-- The wording of a format fault. -/
def FormatFault.message : FormatFault → String
  | .truncated => "Truncated data"
  | .invalidUtf8 => "Invalid UTF-8 sequence"
  | .keyWidth found =>
      "Invalid encoding format: Rank key must be 17 bytes, got " ++ toString found
  | .missingSeparator => "Invalid encoding format: Missing rank key separator"
  | .checksum stored computed =>
      "Invalid encoding format: checksum mismatch: stored " ++ Hex.word stored
        ++ ", computed " ++ Hex.word computed
  | .body cause => "Invalid encoding format: Deserialization failed: " ++ cause.message
  | .pathNotText =>
      "Invalid encoding format: Serialization failed: path contains invalid UTF-8 characters"
  | .other text => "Invalid encoding format: " ++ text

end Leaderboard
