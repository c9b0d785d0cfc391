import Leaderboard.Codec.Fault

/-!
# Codecs

A codec writes values as bytes and reads them back from the front of a byte
string.  Numbers have a fixed width and their least significant byte first, a
text or a list is preceded by its length in eight bytes, an optional value by a
tag of 0 or 1, and an alternative by its index in four bytes.  Fields follow each
other without padding.

`Codec.read` reads a whole byte string: bytes left over after the value are a
fault.  A fault at an earlier field wins over a fault at a later one, and every
field's fault over left-over bytes.
-/

namespace Leaderboard

/-- How the values of a type are written and read. -/
structure Codec (α : Type) where
  /-- The bytes of a value. -/
  encode : α → Bytes
  /-- Reads a value, and leaves the bytes after it. -/
  decode : Bytes → Except FormatFault (α × Bytes)

namespace Codec

/-- Reads a value that takes up the whole byte string. -/
def read {α : Type} (c : Codec α) (bs : Bytes) : Except FormatFault α := do
  let (a, rest) ← c.decode bs
  if rest.isEmpty then pure a else throw (.body .leftover)

/-- The next `n` bytes. -/
def take (n : Nat) (bs : Bytes) : Except FormatFault (Bytes × Bytes) :=
  match Bytes.split? n bs with
  | some cut => .ok cut
  | none => .error .truncated

/-! ## Combining codecs -/

/-- A codec of one type used for another. -/
def map {α β : Type} (c : Codec α) (there : α → β) (back : β → α) : Codec β where
  encode b := c.encode (back b)
  decode bs := do
    let (a, rest) ← c.decode bs
    pure (there a, rest)

/-- One value after another. -/
def pair {α β : Type} (c : Codec α) (d : Codec β) : Codec (α × β) where
  encode p := c.encode p.1 ++ d.encode p.2
  decode bs := do
    let (a, bs) ← c.decode bs
    let (b, bs) ← d.decode bs
    pure ((a, b), bs)

/-! ## Numbers -/

/-- A number of `w` bytes. -/
def number (w : Nat) : Codec Nat where
  encode n := Bytes.ofNatLE w n
  decode bs := do
    let (digits, rest) ← take w bs
    pure (Bytes.toNatLE digits, rest)

/-- A byte. -/
def u8 : Codec UInt8 := (number 1).map UInt8.ofNat UInt8.toNat

/-- A word of four bytes. -/
def u32 : Codec UInt32 := (number 4).map UInt32.ofNat UInt32.toNat

/-- A word of eight bytes. -/
def u64 : Codec UInt64 := (number 8).map UInt64.ofNat UInt64.toNat

/-- A signed word of eight bytes. -/
def i64 : Codec Int64 := u64.map UInt64.toInt64 Int64.toUInt64

/-! ## Truth values, options and alternatives -/

/-- A truth value: a byte that is 0 or 1. -/
def truth : Codec Bool where
  encode b := [if b then 1 else 0]
  decode bs := do
    let (byte, rest) ← u8.decode bs
    if byte = 0 then pure (false, rest)
    else if byte = 1 then pure (true, rest)
    else throw (.body (.truth byte))

/-- An optional value: a tag that is 0 or 1, and after 1 the value. -/
def option {α : Type} (c : Codec α) : Codec (Option α) where
  encode
    | none => [0]
    | some a => 1 :: c.encode a
  decode bs := do
    let (tag, bs) ← u8.decode bs
    if tag = 0 then pure (none, bs)
    else if tag = 1 then
      let (a, bs) ← c.decode bs
      pure (some a, bs)
    else throw (.body (.tag tag))

/-- One of finitely many values: its place among them. -/
def alternative {α : Type} [DecidableEq α] (values : List α) : Codec α where
  encode a := Bytes.ofNatLE 4 (values.idxOf a)
  decode bs := do
    let (index, bs) ← (number 4).decode bs
    match values[index]? with
    | some a => pure (a, bs)
    | none => throw (.body (.alternative index values.length))

/-! ## Text and lists -/

/-- Bytes preceded by their number. -/
def blob : Codec Bytes where
  encode bs := Bytes.ofNatLE 8 bs.length ++ bs
  decode bs := do
    let (n, bs) ← (number 8).decode bs
    take n bs

/-- A text in UTF-8, preceded by the number of its bytes. -/
def text : Codec String where
  encode s := blob.encode (Bytes.ofString s)
  decode bs := do
    let (content, bs) ← blob.decode bs
    match Bytes.toString? content with
    | some s => pure (s, bs)
    | none => throw .invalidUtf8

/-- The number of bytes of a character, told by its first; 0 if no character
starts so. -/
def characterWidth (b : UInt8) : Nat :=
  if b < 0x80 then 1
  else if b < 0xc2 then 0
  else if b < 0xe0 then 2
  else if b < 0xf0 then 3
  else if b < 0xf5 then 4
  else 0

/-- A character in UTF-8, without a length.  Bytes missing after the first make
it no character. -/
def character : Codec Char where
  encode c := Bytes.ofString (String.singleton c)
  decode bs := do
    let (first, rest) ← u8.decode bs
    match Bytes.split? (characterWidth first - 1) rest with
    | none => throw (.body .character)
    | some (more, rest) =>
        match Bytes.toString? (first :: more) with
        | none => throw (.body .character)
        | some s =>
            match s.toList with
            | [c] => pure (c, rest)
            | _ => throw (.body .character)

/-- Reads a number of values. -/
def decodeMany {α : Type} (c : Codec α) : Nat → Bytes → Except FormatFault (List α × Bytes)
  | 0, bs => .ok ([], bs)
  | n + 1, bs => do
      let (a, bs) ← c.decode bs
      let (as, bs) ← decodeMany c n bs
      pure (a :: as, bs)

/-- A list of values, preceded by their number. -/
def list {α : Type} (c : Codec α) : Codec (List α) where
  encode as := Bytes.ofNatLE 8 as.length ++ as.flatMap c.encode
  decode bs := do
    let (n, bs) ← (number 8).decode bs
    decodeMany c n bs

example : text.read [2, 0, 0, 0, 0, 0, 0, 0, 0x61] = .error .truncated := rfl
example : u32.read [1, 0, 0, 0, 9] = .error (.body .leftover) := rfl
example : (option u8).read [2] = .error (.body (.tag 2)) := rfl

end Codec

end Leaderboard
