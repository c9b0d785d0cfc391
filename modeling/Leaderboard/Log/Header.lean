import Leaderboard.Failure

/-!
# Log headers

A log file begins with twenty-two bytes: a mark, the version of the format, the
number of entries that were synced and their checksum, each number with its
most significant byte first.

`Header.read` reads the fields as they are, and names the field at which the
bytes end.  `Header.decode` accepts only a header of this format, with the mark
and a version that is known.
-/

namespace Leaderboard

/-- The mark that every log file begins with. -/
def Header.mark : UInt32 := 0x524e4b

/-- The newest version of the format. -/
def Header.newest : UInt16 := 1

/-- The header of a log file. -/
structure Header where
  /-- The mark of the format. -/
  magic : UInt32 := Header.mark
  /-- The version of the format. -/
  version : UInt16 := Header.newest
  /-- The number of entries that were synced. -/
  entryCount : UInt64 := 0
  /-- The checksum of the keys and values of these entries. -/
  checksum : UInt64 := 0
deriving DecidableEq, Repr

namespace Header

/-- The number of bytes of a header. -/
def width : Nat := 22

/-- The fields of a header: the name and the bytes of each. -/
def fields (h : Header) : List (String × Bytes) :=
  [("magic", Bytes.ofNatBE 4 h.magic.toNat), ("version", Bytes.ofNatBE 2 h.version.toNat),
    ("entry_count", Bytes.ofNatBE 8 h.entryCount.toNat),
    ("checksum", Bytes.ofNatBE 8 h.checksum.toNat)]

/-- The bytes of a header. -/
def encode (h : Header) : Bytes := h.fields.flatMap Prod.snd

@[simp] theorem length_encode (h : Header) : h.encode.length = width := by
  simp [encode, fields, width]

/-! ## Writing into a room of fixed size -/

/-- Writes fields at the front of a room, and leaves the rest of it as it is. -/
def writeFields : List (String × Bytes) → Bytes → Except Failure Bytes
  | [], room => .ok room
  | (name, bytes) :: rest, room =>
      if bytes.length ≤ room.length then do
        let after ← writeFields rest (room.drop bytes.length)
        pure (bytes ++ after)
      else .error (.encode name .shortWrite)

/-- Writes a header at the front of a room. -/
def encodeInto (h : Header) (room : Bytes) : Except Failure Bytes := writeFields h.fields room

/-! ## Reading -/

/-- Reads a number of `w` bytes, which is the field of that name. -/
def readField (name : String) (w : Nat) (bs : Bytes) : Except Failure (Nat × Bytes) :=
  match Bytes.split? w bs with
  | some (digits, rest) => .ok (Bytes.toNatBE digits, rest)
  | none => .error (.decode name .shortRead)

/-- Reads the fields of a header. -/
def read (bs : Bytes) : Except Failure Header := do
  let (magic, bs) ← readField "magic" 4 bs
  let (version, bs) ← readField "version" 2 bs
  let (entryCount, bs) ← readField "entry_count" 8 bs
  let (checksum, _) ← readField "checksum" 8 bs
  pure {
    magic := UInt32.ofNat magic
    version := UInt16.ofNat version
    entryCount := UInt64.ofNat entryCount
    checksum := UInt64.ofNat checksum }

/-- Whether the mark is right and the version known. -/
def Known (h : Header) : Prop := h.magic = mark ∧ h.version ≠ 0 ∧ h.version ≤ newest

instance (h : Header) : Decidable h.Known := inferInstanceAs (Decidable (_ ∧ _ ∧ _))

/-- Reads a header of this format. -/
def decode (bs : Bytes) : Except Failure Header :=
  if bs.length < width then .error .invalidHeader
  else do
    let h ← read bs
    if h.Known then pure h else throw .invalidHeader

example : ({} : Header).encode =
    [0, 0x52, 0x4e, 0x4b, 0, 1, 0, 0, 0, 0, 0, 0, 0, 0, 0, 0, 0, 0, 0, 0, 0, 0] := by
  decide +kernel
example : decode (({ version := 2 } : Header).encode) = .error .invalidHeader := by rfl

end Header

end Leaderboard
