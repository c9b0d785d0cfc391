import Leaderboard.Checksum
import Leaderboard.File
import Leaderboard.Log.Header

/-!
# Log entries

An entry of the log is a key and a value.  In the file each of the two is
preceded by its length in four bytes, most significant first.

A `Replay` reads the entries of a file one by one, keeps a rolling checksum of
their keys and values, and remembers where the last complete entry ends.
Reading stops at a clean end, or at an entry that is cut short, which is damage;
the replay then still stands after the last complete entry.
-/

namespace Leaderboard

/-- An entry of the log: the value a key was given. -/
structure LogEntry where
  /-- The key. -/
  key : Bytes
  /-- The value. -/
  value : Bytes
deriving DecidableEq, Repr

namespace LogEntry

/-! ## The form of an entry in the file -/

/-- The four byte strings that are written for an entry. -/
def pieces (e : LogEntry) : List Bytes :=
  [Bytes.ofNatBE 4 e.key.length, e.key, Bytes.ofNatBE 4 e.value.length, e.value]

/-- The bytes of an entry. -/
def encode (e : LogEntry) : Bytes := e.pieces.flatten

/-- The number of bytes of an entry. -/
def width (e : LogEntry) : Nat := 8 + e.key.length + e.value.length

@[simp] theorem length_encode (e : LogEntry) : e.encode.length = e.width := by
  simp [encode, pieces, width]
  omega

/-- The checksum after an entry's key and value. -/
def digest (c : Checksum) (e : LogEntry) : Checksum := (c.write e.key).write e.value

/-- Reads a field that starts at a position of the file. -/
def readField (field : LogField) (position : Nat) (bs : Bytes) :
    Except LogDamage (Bytes × Bytes) :=
  match Bytes.split? 4 bs with
  | none => .error (.cutShort field)
  | some (digits, rest) =>
      match Bytes.split? (Bytes.toNatBE digits) rest with
      | none => .error (.overrun field (Bytes.toNatBE digits) (position + 4))
      | some cut => .ok cut

/-- Reads an entry that starts at a position of the file. -/
def read (position : Nat) (bs : Bytes) : Except LogDamage (LogEntry × Bytes) := do
  let (key, bs) ← readField .key position bs
  let (value, bs) ← readField .value (position + 4 + key.length) bs
  pure ({ key, value }, bs)

/-- A field that is read is taken off the front, with its length before it, which it is
not too long for. -/
theorem readField_eq_ok {field : LogField} {position : Nat} {bs content rest : Bytes}
    (h : readField field position bs = .ok (content, rest)) :
    bs = Bytes.ofNatBE 4 content.length ++ content ++ rest ∧ content.length < UInt32.size := by
  rw [readField] at h
  cases h4 : Bytes.split? 4 bs with
  | none => simp [h4] at h
  | some cut =>
      obtain ⟨digits, tail⟩ := cut
      obtain ⟨hd, rfl⟩ := Bytes.split?_eq_some h4
      simp only [h4] at h
      cases hn : Bytes.split? (Bytes.toNatBE digits) tail with
      | none => simp [hn] at h
      | some cut =>
          simp only [hn, Except.ok.injEq] at h
          subst h
          obtain ⟨hc, rfl⟩ := Bytes.split?_eq_some hn
          have hlt := Bytes.toNatBE_lt digits
          rw [hd] at hlt
          rw [hc]
          refine ⟨?_, hlt⟩
          rw [← hd, Bytes.ofNatBE_toNatBE, List.append_assoc]

/-- An entry is read field by field. -/
theorem read_fields {position : Nat} {bs rest : Bytes} {e : LogEntry}
    (h : read position bs = .ok (e, rest)) :
    ∃ tail, readField .key position bs = .ok (e.key, tail) ∧
      readField .value (position + 4 + e.key.length) tail = .ok (e.value, rest) := by
  rw [read] at h
  cases hk : readField .key position bs with
  | error d =>
      rw [hk] at h
      cases h
  | ok cut =>
      obtain ⟨key, tail⟩ := cut
      rw [hk] at h
      cases hv : readField .value (position + 4 + key.length) tail with
      | error d =>
          simp only [bind, Except.bind, hv] at h
          cases h
      | ok cut =>
          simp only [bind, Except.bind, hv, pure, Except.pure, Except.ok.injEq,
            Prod.mk.injEq] at h
          obtain ⟨rfl, rfl⟩ := h
          exact ⟨tail, rfl, hv⟩

/-- An entry that is read is taken off the front. -/
theorem read_eq_ok {position : Nat} {bs rest : Bytes} {e : LogEntry}
    (h : read position bs = .ok (e, rest)) : bs = e.encode ++ rest := by
  obtain ⟨tail, hk, hv⟩ := read_fields h
  rw [(readField_eq_ok hk).1, (readField_eq_ok hv).1]
  simp [encode, pieces]

end LogEntry

/-! ## Replays -/

/-- A reader of log entries, between two of them. -/
structure Replay where
  /-- What follows the last complete entry. -/
  rest : Source
  /-- The checksum of the entries so far. -/
  checksum : Checksum := .initial
  /-- Where the last complete entry ends in the file. -/
  offset : Nat := Header.width
  /-- The number of entries so far. -/
  count : Nat := 0
deriving DecidableEq, Repr

namespace Replay

/-- A replay of what a file opened as, past its header. -/
def ofSource : Source → Replay
  | .bytes content => { rest := .bytes (content.drop Header.width) }
  | .unreadable cause => { rest := .unreadable cause }

/-- The replay after an entry that leaves these bytes. -/
def advance (r : Replay) (e : LogEntry) (rest : Bytes) : Replay where
  rest := .bytes rest
  checksum := e.digest r.checksum
  offset := r.offset + e.width
  count := r.count + 1

/-- The next entry and the replay after it, or none at a clean end. -/
def next (r : Replay) : Except Failure (Option (LogEntry × Replay)) :=
  match r.rest with
  | .unreadable cause => .error (.io cause)
  | .bytes [] => .ok none
  | .bytes bs =>
      match LogEntry.read r.offset bs with
      | .error damage => .error (.corruptedLog damage)
      | .ok (e, rest) => .ok (some (e, r.advance e rest))

/-- The number of bytes not yet read. -/
def remaining (r : Replay) : Nat :=
  match r.rest with
  | .bytes bs => bs.length
  | .unreadable _ => 0

/-- An entry uses up bytes. -/
theorem remaining_lt {r s : Replay} {e : LogEntry} (h : r.next = .ok (some (e, s))) :
    s.remaining < r.remaining := by
  cases hr : r.rest with
  | unreadable cause => simp [next, hr] at h
  | bytes bs =>
      cases bs with
      | nil => simp [next, hr] at h
      | cons b bs =>
          simp only [next, hr] at h
          cases hread : LogEntry.read r.offset (b :: bs) with
          | error damage => simp [hread] at h
          | ok cut =>
              obtain ⟨e', rest⟩ := cut
              simp only [hread, Except.ok.injEq, Option.some.injEq, Prod.mk.injEq] at h
              obtain ⟨rfl, rfl⟩ := h
              have hlen := congrArg List.length (LogEntry.read_eq_ok hread)
              simp only [List.length_append, LogEntry.length_encode, LogEntry.width] at hlen
              simp only [remaining, advance, hr]
              omega

/-- How a replay went: the entries, each with the replay after it, and the
failure that stopped it, if it did not come to a clean end. -/
structure Outcome where
  /-- The entries, each with the replay after it. -/
  steps : List (LogEntry × Replay)
  /-- Why the replay stopped before the end. -/
  stop : Option Failure
deriving DecidableEq, Repr

/-- Reads entries until the end or a failure. -/
def run (r : Replay) : Outcome :=
  match h : r.next with
  | .error failure => ⟨[], some failure⟩
  | .ok none => ⟨[], none⟩
  | .ok (some (e, s)) =>
      have := remaining_lt h
      let outcome := run s
      { outcome with steps := (e, s) :: outcome.steps }
termination_by r.remaining

/-- The entries of an outcome. -/
def Outcome.entries (o : Outcome) : List LogEntry := o.steps.map Prod.fst

/-- The replay where it stopped, for a replay that started at `r`. -/
def Outcome.last (o : Outcome) (r : Replay) : Replay := (o.steps.getLast?.map Prod.snd).getD r

end Replay

end Leaderboard
