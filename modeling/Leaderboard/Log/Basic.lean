import Leaderboard.Log.Buffer
import Leaderboard.Log.Entry

/-!
# The log

The log is a file of entries behind a header.  `Log.openFile` reads the entries
back, `Log.append` adds one at the end, and `Log.sync` makes all of them durable:
it writes what is buffered, waits for the disk, writes a header with the number
and the checksum of the entries over the old one, and waits again.

The header tells which entries were synced.  On opening, that many entries must
be there and have the checksum of the header; what follows them was never
promised, and an entry cut short there is dropped by cutting the file.

A write that fails leaves the file in doubt.  `Log.fail` cuts it back to its
length at the last sync and gives up the buffer, and from then on the log
refuses writes until it is opened again.
-/

namespace Leaderboard

/-- What an open log keeps in memory. -/
structure Log where
  /-- The buffer in front of the file; none once a write has failed. -/
  buffer : Option Buffer
  /-- The number of entries. -/
  entryCount : Nat := 0
  /-- The checksum of the entries. -/
  checksum : Checksum := .initial
  /-- The length of the file with all the entries. -/
  written : Nat
  /-- The length of the file at the last sync. -/
  durable : Nat
deriving DecidableEq, Repr

/-- What was found when a log was opened. -/
structure Recovery where
  /-- The entries, oldest first. -/
  entries : List LogEntry
  /-- The number of bytes cut off at the end. -/
  truncated : Nat
deriving DecidableEq, Repr

namespace Log

variable {φ : Type} [File φ]

/-- An action on a file that reports failures of any kind. -/
abbrev OpenM (φ : Type) := ExceptT Failure (StateM φ)

/-- An action on an open log and its file, both of which survive a failure. -/
abbrev LogM (φ : Type) := ExceptT Failure (StateT Log (StateM φ))

/-- A file action whose faults are reported as failures. -/
def onFile {α : Type} (action : FileM φ α) : OpenM φ α := action.adapt Failure.io

/-- Whether a write has failed. -/
def isFailed (log : Log) : Bool := log.buffer.isNone

/-! ## Opening -/

/-- The header of the file; an empty file gets one. -/
def readHeader : OpenM φ Header := do
  let content ← onFile File.contents
  if content.isEmpty then
    let header : Header := {}
    onFile (File.overwrite header.encode)
    onFile File.sync
    pure header
  else
    match Bytes.split? Header.width content with
    | none => throw (.decode "header" .shortRead)
    | some (front, _) => ExceptT.mk (pure (Header.decode front))

/-- Checks the entries of a file against its header.  Gives the damage to the
synced entries, if any. -/
def damage? (header : Header) (outcome : Replay.Outcome) : Option Failure :=
  let synced := header.entryCount.toNat
  match (outcome.steps.map Prod.snd).find? (·.count == synced) with
  | some replay =>
      if replay.checksum.register = header.checksum then none
      else
        some (.corruptedLog (.mismatch synced replay.checksum.register header.checksum))
  | none =>
      if synced = 0 then none
      else
        some (outcome.stop.getD (.corruptedLog (.entriesMissing outcome.steps.length synced)))

/-- Reads the entries back and cuts off an entry that is not complete. -/
def recover (header : Header) : OpenM φ (Replay × Recovery) := do
  let content ← onFile File.contents
  let start := Replay.ofSource (.bytes content)
  let outcome := start.run
  match damage? header outcome with
  | some failure => throw failure
  | none =>
      let last := outcome.last start
      if outcome.stop.isSome then
        onFile (File.resize last.offset)
        onFile File.sync
      pure (last, { entries := outcome.entries, truncated := last.remaining })

/-- Opens the log in a file, and makes it if there is none. -/
def openFile (capacity : Nat) : OpenM φ (Log × Recovery) := do
  onFile File.create
  let header ← readHeader
  let (last, recovery) ← recover header
  let length := (← onFile File.contents).length
  pure ({
    buffer := some { capacity }
    entryCount := last.count
    checksum := last.checksum
    written := length
    durable := length }, recovery)

/-! ## Writing -/

/-- A file action on the file of an open log. -/
def lift {α : Type} (action : FileM φ α) : LogM φ (Except IoFault α) :=
  ExceptT.mk (StateT.lift (do pure (.ok (← action.run))))

/-- Gives up the buffer and cuts the file back to the last sync. -/
def fail : LogM φ Unit := do
  let log ← get
  set { log with buffer := none }
  let _ ← lift (do File.resize log.durable; File.sync : FileM φ Unit)

/-- A file action after whose fault the log fails. -/
def orFail {α : Type} (action : FileM φ α) : LogM φ α := do
  match ← lift action with
  | .ok a => pure a
  | .error cause =>
      fail
      throw (.io cause)

/-- The buffer of a log that has not failed. -/
def writable : LogM φ Buffer := do
  match (← get).buffer with
  | some buffer => pure buffer
  | none => throw .logFailed

/-- Adds an entry at the end.  It is durable after the next `sync`. -/
def append (e : LogEntry) : LogM φ Unit := do
  if e.key.length ≥ UInt32.size then throw (.encode "key" .fieldTooLong)
  if e.value.length ≥ UInt32.size then throw (.encode "value" .fieldTooLong)
  let pending ← writable
  let buffer ← orFail (pending.writeAll e.pieces)
  modify fun log => { log with
    buffer := some buffer
    entryCount := log.entryCount + 1
    checksum := e.digest log.checksum
    written := log.written + e.width }

/-- The header of a log all of whose entries are synced. -/
def header (log : Log) : Header where
  entryCount := UInt64.ofNat log.entryCount
  checksum := log.checksum.register

/-- Makes all entries durable. -/
def sync : LogM φ Unit := do
  let pending ← writable
  let buffer ← orFail (pending.flush <* File.sync)
  let log ← get
  orFail (File.overwrite log.header.encode *> File.sync)
  set { log with buffer := some buffer, durable := log.written }

/-- Lets go of a log.  What is buffered is written, and a fault in this is
passed over. -/
def close (log : Log) : StateM φ Unit := do
  match log.buffer with
  | some buffer => let _ ← (buffer.flush : FileM φ Buffer).run
  | none => pure ()

end Log

end Leaderboard
