import Leaderboard.File

/-!
# Append buffers

Pieces that are appended to a file are collected in a buffer of fixed capacity.
A piece shorter than the free room is collected.  Otherwise, if it does not fit
in the free room, what was collected is written first; and then a piece of at
least the capacity is written directly, and a shorter one is collected.

What was collected is written in one piece.  If that fails, part of it may be in
the file, and the buffer is of no use any more.
-/

namespace Leaderboard

/-- A buffer in front of the end of a file. -/
structure Buffer where
  /-- The number of bytes it may hold. -/
  capacity : Nat
  /-- The bytes collected and not yet written. -/
  pending : Bytes := []
deriving DecidableEq, Repr

namespace Buffer

variable {φ : Type} [File φ]

/-- The free room. -/
def room (b : Buffer) : Nat := b.capacity - b.pending.length

/-- Writes what was collected. -/
def flush (b : Buffer) : FileM φ Buffer := do
  File.append b.pending
  pure { b with pending := [] }

/-- Collects a piece or writes it. -/
def write (b : Buffer) (piece : Bytes) : FileM φ Buffer := do
  if piece.length < b.room then
    pure { b with pending := b.pending ++ piece }
  else
    let b ← if piece.length > b.room then b.flush else pure b
    if piece.length ≥ b.capacity then
      File.append piece
      pure b
    else
      pure { b with pending := b.pending ++ piece }

/-- Collects or writes pieces in order, up to the first that fails. -/
def writeAll (b : Buffer) (pieces : List Bytes) : FileM φ Buffer := pieces.foldlM write b

end Buffer

end Leaderboard
