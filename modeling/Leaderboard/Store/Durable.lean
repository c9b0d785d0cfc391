import Std.Data.TreeMap
import Leaderboard.Lock
import Leaderboard.Log.Basic
import Leaderboard.Settings
import Leaderboard.Store.Basic

/-!
# Durable stores

A durable store keeps its records in memory and every put in a log.  Opening it
takes the lock of its directory and replays the log.  The log is never
compacted.

A put is written to the log first, and applied only if that succeeds.  A put
that fails is not seen by reads, and after it the store takes no puts until it
is opened again.  A store that is closed answers nothing.
-/

namespace Leaderboard

/-- What an open durable store keeps in memory. -/
structure Durable.Session where
  /-- The log. -/
  log : Log
  /-- The records. -/
  records : Std.TreeMap Bytes Bytes

/-- A durable store: its directory, and what it keeps in memory while it is
open. -/
structure Durable (φ : Type) where
  /-- Its settings. -/
  settings : StoreSettings := {}
  /-- Whether a file stands where the directory should be. -/
  blocked : Bool := false
  /-- The lock file of the directory. -/
  lock : LockFile := {}
  /-- The log file of the directory. -/
  file : φ
  /-- What it keeps in memory; none while it is closed. -/
  session : Option Durable.Session := none

namespace Durable

variable {φ : Type} [File φ]

/-- The failure of an operation on a store that is closed. -/
def closed : Failure := .store "closed"

/-! ## Opening and closing -/

/-- The records after the entries of a log, oldest first. -/
def replayed (entries : List LogEntry) : Std.TreeMap Bytes Bytes :=
  entries.foldl (fun records e => records.insert e.key e.value) ∅

/-- Opens the store under some settings.  `mark` is what the holder of the lock
leaves in the lock file. -/
def openAs (settings : StoreSettings) (mark : String) : StoreM (Durable φ) Unit := fun s =>
  if s.blocked then (.error (.io .alreadyExists), s)
  else
    match LockFile.acquire mark s.lock with
    | (.error failure, lock) => (.error failure, { s with lock })
    | (.ok (), lock) =>
        match Log.openFile settings.bufferSize.toNat s.file with
        | (.error failure, file) => (.error failure, { s with lock := lock.release, file })
        | (.ok (log, recovery), file) =>
            (.ok (), { s with
              settings, lock, file
              session := some { log, records := replayed recovery.entries } })

/-- Closes the store.  What is buffered is written, and a fault in this is passed
over. -/
def close (s : Durable φ) : Durable φ :=
  match s.session with
  | none => s
  | some session =>
      let (_, file) := session.log.close s.file
      { s with file, lock := s.lock.release, session := none }

/-- Closes the store and opens it again. -/
def reopen (mark : String) : StoreM (Durable φ) Unit := do
  modify close
  openAs (← get).settings mark

/-- Opens the directory a second time, under the default settings, and closes it
again. -/
def openTwice (mark : String) : StoreM (Durable φ) Unit := do
  let settings := (← get).settings
  openAs {} mark
  modify fun s => { s.close with settings }

/-! ## Operations -/

/-- An action on the log of a store that is open. -/
def onLog {α : Type} (action : Log.LogM φ α) : StoreM (Durable φ) α := fun s =>
  match s.session with
  | none => (.error closed, s)
  | some session =>
      let ((reply, log), file) := action session.log s.file
      (reply, { s with file, session := some { session with log } })

/-- The number of records, removed ones included; none while the store is closed. -/
def size? (s : Durable φ) : Option Nat := s.session.map (·.records.size)

/-- Reads a key. -/
def get (key : Bytes) : StoreM (Durable φ) (Option Bytes) := fun s =>
  match s.session with
  | none => (.error closed, s)
  | some session => (.ok session.records[key]?, s)

/-- Applies a put that is in the log. -/
def apply (key value : Bytes) (s : Durable φ) : Durable φ :=
  { s with session := s.session.map fun session =>
      { session with records := session.records.insert key value } }

/-- Gives a key a value. -/
def put (key value : Bytes) : StoreM (Durable φ) Unit := do
  let syncOnWrite := (← MonadState.get).settings.syncOnWrite
  onLog do
    Log.append { key, value }
    if syncOnWrite then Log.sync
  modify (apply key value)

instance : ByteStore (Durable φ) where
  get := get
  put := put
  sync := onLog Log.sync

end Durable

end Leaderboard
