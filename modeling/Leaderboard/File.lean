import Leaderboard.Failure

/-!
# Files

A log keeps its entries in one file.  `File` is what it asks of that file:
to be made, read, appended to, overwritten at its start, cut or grown to a
length, and forced to the disk.  Each operation may fail, and a write that fails
may leave part of its bytes behind, so every operation is a `FileM` action,
whose file survives the failure.

`Disk` is one place in a directory.  It holds nothing, a file or a directory,
and it may have a limit beyond which no file grows.  A write that starts at the
limit or beyond fails at once, and one that crosses the limit writes the part
below it and then fails.
-/

namespace Leaderboard

/-- An action on a file, which keeps its effects when it fails. -/
abbrev FileM (φ : Type) := ExceptT IoFault (StateM φ)

/-- What opening a file for reading gives. -/
inductive Source where
  /-- The bytes of a file. -/
  | bytes (content : Bytes)
  /-- Something that opens and cannot be read. -/
  | unreadable (cause : IoFault)
deriving DecidableEq, Repr

/-- The file of a log. -/
class File (φ : Type) where
  /-- Opens the file for writing, and makes an empty one if there is none. -/
  create : FileM φ Unit
  /-- Opens the file for reading. -/
  source : φ → Except IoFault Source
  /-- Writes at the end of the file. -/
  append : Bytes → FileM φ Unit
  /-- Writes over the start of the file. -/
  overwrite : Bytes → FileM φ Unit
  /-- Cuts the file, or fills it up with zeros, to a length. -/
  resize : Nat → FileM φ Unit
  /-- Waits until the file is on the disk. -/
  sync : FileM φ Unit

/-- The bytes of the file. -/
def File.contents {φ : Type} [File φ] : FileM φ Bytes := do
  match File.source (← get) with
  | .ok (.bytes content) => pure content
  | .ok (.unreadable cause) => throw cause
  | .error cause => throw cause

/-! ## Places in a directory -/

/-- What is found at a place in a directory. -/
inductive Disk.Entry where
  /-- Nothing. -/
  | absent
  /-- A file. -/
  | file (content : Bytes)
  /-- A directory. -/
  | directory
deriving DecidableEq, Repr

/-- A place in a directory. -/
structure Disk where
  /-- What is found there. -/
  entry : Disk.Entry := .absent
  /-- The length beyond which no file may grow. -/
  limit : Option Nat := none
deriving DecidableEq, Repr

namespace Disk

/-- The bytes of the file, if there is one. -/
def file? (d : Disk) : Option Bytes :=
  match d.entry with
  | .file content => some content
  | .absent | .directory => none

/-- The place with a file of these bytes. -/
def holding (d : Disk) (content : Bytes) : Disk := { d with entry := .file content }

/-- The number of bytes of a write at an offset that the limit allows. -/
def allowed (d : Disk) (offset count : Nat) : Nat :=
  match d.limit with
  | none => count
  | some limit => min count (limit - offset)

/-- Writes at an offset up to the end of the file, as far as the limit allows. -/
def write (d : Disk) (offset : Nat) (bs : Bytes) : Except IoFault Unit × Disk :=
  match d.entry with
  | .absent => (.error .notFound, d)
  | .directory => (.error .isDirectory, d)
  | .file content =>
      let count := d.allowed offset bs.length
      let written := content.take offset ++ bs.take count ++ content.drop (offset + count)
      (if count < bs.length then .error .fileTooLarge else .ok (), d.holding written)

/-- Cuts the file or fills it up with zeros; the limit forbids growing past it. -/
def resizeTo (d : Disk) (n : Nat) : Except IoFault Unit × Disk :=
  match d.entry with
  | .absent => (.error .notFound, d)
  | .directory => (.error .isDirectory, d)
  | .file content =>
      let grown := n - content.length
      if d.allowed content.length grown < grown then (.error .fileTooLarge, d)
      else (.ok (), d.holding (content.take n ++ List.replicate grown 0))

instance : File Disk where
  create d :=
    match d.entry with
    | .absent => (.ok (), d.holding [])
    | .directory => (.error .isDirectory, d)
    | .file _ => (.ok (), d)
  source d :=
    match d.entry with
    | .absent => .error .notFound
    | .directory => .ok (.unreadable .isDirectory)
    | .file content => .ok (.bytes content)
  append bs d := d.write (d.file?.getD []).length bs
  overwrite bs d := d.write 0 bs
  resize n d := d.resizeTo n
  sync d := (.ok (), d)

/-! ## Changes from outside

Another program may change the file behind the log, and is not limited.  What
cannot be done changes nothing. -/

/-- The place with these bytes as its file. -/
def fill (d : Disk) (content : Bytes) : Disk :=
  match d.entry with
  | .directory => d
  | .absent | .file _ => d.holding content

/-- The place with these bytes over those at an offset; a gap is filled with
zeros. -/
def patch (d : Disk) (offset : Nat) (bs : Bytes) : Disk :=
  let content := d.file?.getD []
  let padded := content ++ List.replicate (offset - content.length) 0
  d.fill (padded.take offset ++ bs ++ padded.drop (offset + bs.length))

/-- The place cut or filled up with zeros to a length. -/
def truncate (d : Disk) (n : Nat) : Disk :=
  { (({ d with limit := none }).resizeTo n).2 with limit := d.limit }

/-- The place with a directory, if there was nothing. -/
def mkdir (d : Disk) : Disk :=
  match d.entry with
  | .absent => { d with entry := .directory }
  | .directory | .file _ => d

example : ({ entry := .file [1, 2], limit := some 4 } : Disk).write 2 [3, 4, 5] =
    (.error .fileTooLarge, { entry := .file [1, 2, 3, 4], limit := some 4 }) := rfl
example : ({ entry := .file [1, 2, 3], limit := some 1 } : Disk).resizeTo 2 =
    (.ok (), { entry := .file [1, 2], limit := some 1 }) := rfl

end Disk

end Leaderboard
