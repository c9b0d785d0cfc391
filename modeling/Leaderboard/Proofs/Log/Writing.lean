import Leaderboard.Log.Basic
import Leaderboard.Proofs.File.Lawful
import Leaderboard.Proofs.Log.Entries

/-!
# Writing to a log

A buffer writes at the end of a file only, and what it has written and what it
still holds are together what it was given (`Buffer.appends_writeAll`).

The rest says what each request to a log does, with one equation for each way it
can go: a request to a log that failed earlier changes nothing; a request whose
write fails gives up the buffer and cuts the file (`Log.rolledBack`); and one that
succeeds changes the log as `Log.appended` and `Log.synced` tell.
-/

namespace Leaderboard

open File (Holds Appends)
open LawfulFile (Calm)

/-! ## Buffers -/

namespace Buffer

variable {φ : Type} [File φ]

/-- Writes a piece that takes all the room of an empty buffer, and holds a shorter one. -/
def pass (b : Buffer) (piece : Bytes) : FileM φ Buffer :=
  if piece.length ≥ b.capacity then do
    File.append piece
    pure b
  else pure { b with pending := b.pending ++ piece }

/-- A piece is held if it fits, and else passed on, after what is held if it is too
long for the room. -/
theorem write_eq (b : Buffer) (piece : Bytes) :
    (b.write piece : FileM φ Buffer) =
      if piece.length < b.room then pure { b with pending := b.pending ++ piece }
      else if piece.length > b.room then b.flush >>= fun b' => b'.pass piece
      else b.pass piece := by
  rw [write]
  split
  · rfl
  · split <;> rfl

/-- Pieces that fit in the room are held, and none is written. -/
theorem writeAll_of_lt {b : Buffer} {pieces : List Bytes} (h : pieces.flatten.length < b.room)
    (f : φ) : b.writeAll pieces f = (.ok { b with pending := b.pending ++ pieces.flatten }, f) := by
  induction pieces generalizing b with
  | nil =>
      rw [List.flatten_nil, List.append_nil]
      rfl
  | cons piece pieces ih =>
      rw [List.flatten_cons, List.length_append] at h
      have hwrite : b.write piece f = (.ok { b with pending := b.pending ++ piece }, f) := by
        rw [write_eq, if_pos (by omega)]
        rfl
      have hrest := ih (b := { b with pending := b.pending ++ piece }) (by
        simp only [room, List.length_append] at h ⊢
        omega)
      rw [List.append_assoc] at hrest
      exact (File.bind_of_ok hwrite _).trans hrest

variable [LawfulFile φ]

theorem appends_flush (b : Buffer) :
    Appends (b.flush : FileM φ Buffer) fun b' w => b'.pending = [] ∧ w = b.pending := by
  refine ((File.appends_append b.pending).bind fun _ _ _ => File.appends_pure _).mono ?_
  rintro b' w ⟨-, u, v, rfl, ⟨rfl, rfl⟩, rfl⟩
  exact ⟨rfl, List.append_nil _⟩

/-- A piece that does not fit is written if nothing is held before it. -/
theorem appends_pass (b : Buffer) (piece : Bytes)
    (h : piece.length ≥ b.capacity → b.pending = [] ∨ piece = []) :
    Appends (b.pass piece : FileM φ Buffer) fun b' w => w ++ b'.pending = b.pending ++ piece := by
  rw [pass]
  split
  · rename_i hlong
    refine ((File.appends_append piece).bind fun _ _ _ => File.appends_pure b).mono ?_
    rintro b' w ⟨-, u, v, rfl, ⟨rfl, rfl⟩, rfl⟩
    cases h hlong with
    | inl hpending => simp [hpending]
    | inr hpiece => simp [hpiece]
  · refine (File.appends_pure _).mono ?_
    rintro b' w ⟨rfl, rfl⟩
    rfl

/-- What was written and what is held are what was held and the piece. -/
theorem appends_write (b : Buffer) (piece : Bytes) :
    Appends (b.write piece : FileM φ Buffer) fun b' w => w ++ b'.pending = b.pending ++ piece := by
  rw [write_eq]
  split
  · refine (File.appends_pure _).mono ?_
    rintro b' w ⟨rfl, rfl⟩
    rfl
  · rename_i hshort
    split
    · refine ((appends_flush b).bind fun b' w hb' =>
        appends_pass b' piece fun _ => .inl hb'.1).mono ?_
      rintro b' w ⟨b₁, u, v, ⟨hpending, rfl⟩, hpass, rfl⟩
      rw [List.append_assoc, hpass, hpending, List.nil_append]
    · rename_i hlong
      -- the piece takes all the room, so it is held unless it takes all the capacity
      refine appends_pass b piece fun hcapacity => ?_
      rw [room] at hshort hlong
      by_cases hpiece : piece = []
      · exact .inr hpiece
      · have hpos := List.length_pos_iff.mpr hpiece
        exact .inl (List.eq_nil_of_length_eq_zero (by omega))

/-- What was written and what is held are what was held and the pieces. -/
theorem appends_writeAll (b : Buffer) (pieces : List Bytes) :
    Appends (b.writeAll pieces : FileM φ Buffer) fun b' w =>
      w ++ b'.pending = b.pending ++ pieces.flatten := by
  induction pieces generalizing b with
  | nil =>
      refine (File.appends_pure b).mono ?_
      rintro b' w ⟨rfl, rfl⟩
      exact (List.append_nil _).symm
  | cons piece pieces ih =>
      refine ((appends_write b piece).bind fun b' _ _ => ih b').mono ?_
      rintro b' w ⟨b₁, u, v, hwrite, hrest, rfl⟩
      rw [List.append_assoc, hrest, ← List.append_assoc, hwrite, List.flatten_cons,
        List.append_assoc]

/-- What is held is written, and the file is then forced to the disk. -/
theorem appends_flush_sync (b : Buffer) :
    Appends (b.flush <* File.sync : FileM φ Buffer) fun b' w =>
      b'.pending = [] ∧ w = b.pending := by
  have hbind : (b.flush <* File.sync : FileM φ Buffer) =
      b.flush >>= fun b' => File.sync >>= fun _ => pure b' := rfl
  rw [hbind]
  refine ((appends_flush b).bind fun b' _ _ =>
    File.appends_sync.bind fun _ _ _ => File.appends_pure b').mono ?_
  rintro b' w ⟨b₁, u, v, ⟨hpending, rfl⟩, ⟨-, s, t, rfl, ⟨rfl, rfl⟩, rfl⟩, rfl⟩
  exact ⟨hpending, by simp⟩

/-! ### On a calm file -/

variable {f : φ} {c : Bytes}

theorem flush_calm (b : Buffer) (hcalm : Calm f) (hf : Holds f c) :
    ∃ f', b.flush f = (.ok { b with pending := [] }, f') ∧ Calm f' ∧ ∃ c', Holds f' c' := by
  obtain ⟨f', hrun, hcalm'⟩ := LawfulFile.append_calm b.pending hcalm hf
  obtain ⟨n, hf', -⟩ := LawfulFile.append_holds hf hrun
  exact ⟨f', File.bind_of_ok hrun _, hcalm', _, hf'⟩

theorem pass_calm (b : Buffer) (piece : Bytes) (hcalm : Calm f) (hf : Holds f c) :
    ∃ b' f', b.pass piece f = (.ok b', f') ∧ Calm f' ∧ (∃ c', Holds f' c') ∧
      b'.capacity = b.capacity ∧ (b.pending.length ≤ b.capacity →
        (piece.length < b.capacity → b.pending.length + piece.length ≤ b.capacity) →
        b'.pending.length ≤ b.capacity) := by
  rw [pass]
  split
  · obtain ⟨f', hrun, hcalm'⟩ := LawfulFile.append_calm piece hcalm hf
    obtain ⟨n, hf', -⟩ := LawfulFile.append_holds hf hrun
    exact ⟨b, f', File.bind_of_ok hrun _, hcalm', ⟨_, hf'⟩, rfl, fun hroom _ => hroom⟩
  · rename_i hlt
    refine ⟨_, f, rfl, hcalm, ⟨c, hf⟩, rfl, fun _ hshort => ?_⟩
    rw [List.length_append]
    exact hshort (Nat.lt_of_not_le hlt)

theorem write_calm (b : Buffer) (piece : Bytes) (hcalm : Calm f) (hf : Holds f c) :
    ∃ b' f', b.write piece f = (.ok b', f') ∧ Calm f' ∧ (∃ c', Holds f' c') ∧
      b'.capacity = b.capacity ∧
      (b.pending.length ≤ b.capacity → b'.pending.length ≤ b.capacity) := by
  rw [write_eq, room]
  split
  · refine ⟨_, f, rfl, hcalm, ⟨c, hf⟩, rfl, fun _ => ?_⟩
    rw [List.length_append]
    omega
  · split
    · obtain ⟨g, hrun, hcalm', c', hg⟩ := b.flush_calm hcalm hf
      obtain ⟨b', f', hpass, hcalm'', hf', hcapacity, hbound⟩ :=
        pass_calm { b with pending := [] } piece hcalm' hg
      refine ⟨b', f', (File.bind_of_ok hrun _).trans hpass, hcalm'', hf', hcapacity, fun _ => ?_⟩
      exact hbound (Nat.zero_le _) fun hlt => by simpa using Nat.le_of_lt hlt
    · obtain ⟨b', f', hpass, hcalm', hf', hcapacity, hbound⟩ := b.pass_calm piece hcalm hf
      exact ⟨b', f', hpass, hcalm', hf', hcapacity, fun hroom => hbound hroom fun _ => by omega⟩

/-- On a calm file pieces are written, and no more is held than there is room for. -/
theorem writeAll_calm (b : Buffer) (pieces : List Bytes) (hcalm : Calm f) (hf : Holds f c) :
    ∃ b' f', b.writeAll pieces f = (.ok b', f') ∧ Calm f' ∧ (∃ c', Holds f' c') ∧
      b'.capacity = b.capacity ∧
      (b.pending.length ≤ b.capacity → b'.pending.length ≤ b.capacity) := by
  induction pieces generalizing b f c with
  | nil => exact ⟨b, f, rfl, hcalm, ⟨c, hf⟩, rfl, id⟩
  | cons piece pieces ih =>
      obtain ⟨b₁, g, hrun, hcalm', ⟨c', hg⟩, hcapacity, hbound⟩ := b.write_calm piece hcalm hf
      obtain ⟨b', f', hrest, hcalm'', hf', hcapacity', hbound'⟩ := ih b₁ hcalm' hg
      rw [hcapacity] at hcapacity' hbound'
      exact ⟨b', f', (File.bind_of_ok hrun _).trans hrest, hcalm'', hf', hcapacity',
        fun hroom => hbound' (hbound hroom)⟩

end Buffer

/-! ## Requests -/

namespace Log

variable {φ α β : Type} {log log' : Log} {f g : φ}

/-- The log after a write failed. -/
def gaveUp (log : Log) : Log := { log with buffer := none }

/-- The file after a write failed: it is cut back to its length at the last sync. -/
def rolledBack [File φ] (log : Log) (f : φ) : φ :=
  ((do File.resize log.durable; File.sync : FileM φ Unit) f).2

/-- The log after an entry was added. -/
def appended (log : Log) (e : LogEntry) (buffer : Buffer) : Log where
  buffer := some buffer
  entryCount := log.entryCount + 1
  checksum := e.digest log.checksum
  written := log.written + e.width
  durable := log.durable

/-- The log after its entries were synced. -/
def synced (log : Log) (buffer : Buffer) : Log :=
  { log with buffer := some buffer, durable := log.written }

/-! ### Actions -/

theorem bind_of_ok {x : LogM φ α} {a : α} (h : x log f = ((.ok a, log'), g))
    (k : α → LogM φ β) : (x >>= k) log f = k a log' g := by
  show ExceptT.bindCont k (x log f).1.1 (x log f).1.2 (x log f).2 = _
  rw [h]
  rfl

theorem bind_of_error {x : LogM φ α} {failure : Failure}
    (h : x log f = ((.error failure, log'), g)) (k : α → LogM φ β) :
    (x >>= k) log f = ((.error failure, log'), g) := by
  show ExceptT.bindCont k (x log f).1.1 (x log f).1.2 (x log f).2 = _
  rw [h]
  rfl

theorem lift_eq (x : FileM φ α) (log : Log) (f : φ) :
    lift x log f = ((.ok (x f).1, log), (x f).2) := rfl

theorem fail_eq [File φ] (log : Log) (f : φ) :
    (fail : LogM φ Unit) log f = ((.ok (), log.gaveUp), log.rolledBack f) := rfl

theorem orFail_of_ok [File φ] {x : FileM φ α} {a : α} (h : x f = (.ok a, g)) (log : Log) :
    orFail x log f = ((.ok a, log), g) := by
  have hlift : lift x log f = ((.ok (.ok a), log), g) := by rw [lift_eq, h]
  rw [orFail, bind_of_ok hlift]
  rfl

/-- A log whose write fails gives up its buffer and cuts its file. -/
theorem orFail_of_error [File φ] {x : FileM φ α} {cause : IoFault} (h : x f = (.error cause, g))
    (log : Log) :
    orFail x log f = ((.error (.io cause), log.gaveUp), log.rolledBack g) := by
  have hlift : lift x log f = ((.ok (.error cause), log), g) := by rw [lift_eq, h]
  rw [orFail, bind_of_ok hlift]
  exact bind_of_ok (fail_eq log g) _

theorem writable_of_some {b : Buffer} (h : log.buffer = some b) (f : φ) :
    writable log f = ((.ok b, log), f) := by
  have hget : (get : LogM φ Log) log f = ((.ok log, log), f) := rfl
  rw [writable, bind_of_ok hget, h]
  rfl

theorem writable_of_none (h : log.buffer = none) (f : φ) :
    writable log f = ((.error .logFailed, log), f) := by
  have hget : (get : LogM φ Log) log f = ((.ok log, log), f) := rfl
  rw [writable, bind_of_ok hget, h]
  rfl

variable [File φ]

/-! ### Adding an entry -/

/-- An entry that does not fit is refused, whatever the log. -/
theorem append_of_not_fits {e : LogEntry} (h : ¬ e.Fits) (log : Log) (f : φ) :
    append e log f = ((.error e.refusal, log), f) := by
  rw [append, LogEntry.refusal]
  by_cases hkey : e.key.length < UInt32.size
  · have hvalue : e.value.length ≥ UInt32.size :=
      Nat.le_of_not_lt fun hlt => h ⟨hkey, hlt⟩
    rw [if_neg (Nat.not_le.mpr hkey), if_pos hvalue, if_pos hkey]
    rfl
  · rw [if_pos (Nat.le_of_not_lt hkey), if_neg hkey]
    rfl

theorem append_of_fits {e : LogEntry} (h : e.Fits) :
    (append e : LogM φ Unit) = writable >>= fun pending =>
      orFail (pending.writeAll e.pieces) >>= fun buffer =>
        modify fun log => log.appended e buffer := by
  rw [append, if_neg (Nat.not_le.mpr h.1), if_neg (Nat.not_le.mpr h.2)]
  rfl

theorem append_of_none {e : LogEntry} (he : e.Fits) (h : log.buffer = none) (f : φ) :
    append e log f = ((.error .logFailed, log), f) := by
  rw [append_of_fits he]
  exact bind_of_error (writable_of_none h f) _

theorem append_of_ok {e : LogEntry} {b b' : Buffer} (he : e.Fits) (h : log.buffer = some b)
    (hwrite : b.writeAll e.pieces f = (.ok b', g)) :
    append e log f = ((.ok (), log.appended e b'), g) := by
  rw [append_of_fits he, bind_of_ok (writable_of_some h f), bind_of_ok (orFail_of_ok hwrite log)]
  rfl

/-- An entry for which there is room is held, and nothing is written. -/
theorem append_of_room {e : LogEntry} {b : Buffer} (he : e.Fits) (h : log.buffer = some b)
    (hroom : e.width < b.room) (f : φ) :
    append e log f = ((.ok (), log.appended e { b with pending := b.pending ++ e.encode }), f) := by
  rw [← LogEntry.length_encode] at hroom
  exact append_of_ok he h (Buffer.writeAll_of_lt hroom f)

theorem append_of_error {e : LogEntry} {b : Buffer} {cause : IoFault} (he : e.Fits)
    (h : log.buffer = some b) (hwrite : b.writeAll e.pieces f = (.error cause, g)) :
    append e log f = ((.error (.io cause), log.gaveUp), log.rolledBack g) := by
  rw [append_of_fits he, bind_of_ok (writable_of_some h f)]
  exact bind_of_error (orFail_of_error hwrite log) _

/-! ### Making entries durable -/

theorem sync_of_none (h : log.buffer = none) (f : φ) :
    sync log f = ((.error .logFailed, log), f) := bind_of_error (writable_of_none h f) _

/-- The entries are in the file, and the header is next. -/
theorem sync_of_flushed {b b' : Buffer} (h : log.buffer = some b)
    (hflush : (b.flush <* File.sync : FileM φ Buffer) f = (.ok b', g)) :
    sync log f = (orFail (File.overwrite log.header.encode *> File.sync) >>= fun _ =>
      set (log.synced b') : LogM φ Unit) log g := by
  rw [sync, bind_of_ok (writable_of_some h f), bind_of_ok (orFail_of_ok hflush log)]
  rfl

theorem sync_of_flush_error {b : Buffer} {cause : IoFault} (h : log.buffer = some b)
    (hflush : (b.flush <* File.sync : FileM φ Buffer) f = (.error cause, g)) :
    sync log f = ((.error (.io cause), log.gaveUp), log.rolledBack g) := by
  rw [sync, bind_of_ok (writable_of_some h f)]
  exact bind_of_error (orFail_of_error hflush log) _

theorem sync_of_header_error {b b' : Buffer} {cause : IoFault} {flushed : φ}
    (h : log.buffer = some b)
    (hflush : (b.flush <* File.sync : FileM φ Buffer) f = (.ok b', flushed))
    (hheader : (File.overwrite log.header.encode *> File.sync : FileM φ Unit) flushed =
      (.error cause, g)) :
    sync log f = ((.error (.io cause), log.gaveUp), log.rolledBack g) := by
  rw [sync_of_flushed h hflush]
  exact bind_of_error (orFail_of_error hheader log) _

theorem sync_of_ok {b b' : Buffer} {flushed : φ} (h : log.buffer = some b)
    (hflush : (b.flush <* File.sync : FileM φ Buffer) f = (.ok b', flushed))
    (hheader : (File.overwrite log.header.encode *> File.sync : FileM φ Unit) flushed =
      (.ok (), g)) :
    sync log f = ((.ok (), log.synced b'), g) := by
  rw [sync_of_flushed h hflush, bind_of_ok (orFail_of_ok hheader log)]
  rfl

/-! ### Letting go -/

theorem close_of_some {b : Buffer} (h : log.buffer = some b) (f : φ) :
    log.close f = ((), ((b.flush : FileM φ Buffer) f).2) := by
  rw [close, h]
  rfl

theorem close_of_none (h : log.buffer = none) (f : φ) : log.close f = ((), f) := by
  rw [close, h]
  rfl

/-! ### Success -/

/-- An entry is added if it fits, the log has not failed and the pieces are written. -/
theorem append_eq_ok {e : LogEntry} (h : append e log f = ((.ok (), log'), g)) :
    e.Fits ∧ ∃ b b', log.buffer = some b ∧ b.writeAll e.pieces f = (.ok b', g) ∧
      log' = log.appended e b' := by
  by_cases he : e.Fits
  · refine ⟨he, ?_⟩
    cases hb : log.buffer with
    | none =>
        rw [append_of_none he hb] at h
        cases h
    | some b =>
        cases hrun : (b.writeAll e.pieces : FileM φ Buffer) f with
        | mk r g' =>
            cases r with
            | error cause =>
                rw [append_of_error he hb hrun] at h
                cases h
            | ok b' =>
                rw [append_of_ok he hb hrun] at h
                cases h
                exact ⟨b, b', rfl, hrun, rfl⟩
  · rw [append_of_not_fits he] at h
    cases h

/-- Entries are synced if the log has not failed, what is held is written and the
header is written over. -/
theorem sync_eq_ok (h : sync log f = ((.ok (), log'), g)) :
    ∃ b b' flushed, log.buffer = some b ∧
      (b.flush <* File.sync : FileM φ Buffer) f = (.ok b', flushed) ∧
      (File.overwrite log.header.encode *> File.sync : FileM φ Unit) flushed = (.ok (), g) ∧
      log' = log.synced b' := by
  cases hb : log.buffer with
  | none =>
      rw [sync_of_none hb] at h
      cases h
  | some b =>
      cases hflush : (b.flush <* File.sync : FileM φ Buffer) f with
      | mk r flushed =>
          cases r with
          | error cause =>
              rw [sync_of_flush_error hb hflush] at h
              cases h
          | ok b' =>
              cases hheader : (File.overwrite log.header.encode *> File.sync : FileM φ Unit)
                  flushed with
              | mk r g' =>
                  cases r with
                  | error cause =>
                      rw [sync_of_header_error hb hflush hheader] at h
                      cases h
                  | ok u =>
                      rw [sync_of_ok hb hflush hheader] at h
                      cases h
                      exact ⟨b, b', flushed, rfl, hflush, hheader, rfl⟩

/-! ### On a calm file -/

variable [LawfulFile φ] {c : Bytes} {b : Buffer}

/-- An entry that fits is added. -/
theorem append_calm {e : LogEntry} (he : e.Fits) (hb : log.buffer = some b) (hcalm : Calm f)
    (hf : Holds f c) :
    ∃ b' f', append e log f = ((.ok (), log.appended e b'), f') ∧ Calm f' ∧
      b'.capacity = b.capacity ∧
      (b.pending.length ≤ b.capacity → b'.pending.length ≤ b.capacity) := by
  obtain ⟨b', f', hwrite, hcalm', -, hbound⟩ := b.writeAll_calm e.pieces hcalm hf
  exact ⟨b', f', append_of_ok he hb hwrite, hcalm', hbound⟩

/-- Entries are synced. -/
theorem sync_calm (hb : log.buffer = some b) (hcalm : Calm f) (hf : Holds f c) :
    ∃ f', sync log f = ((.ok (), log.synced { b with pending := [] }), f') ∧ Calm f' := by
  obtain ⟨g, hflush, hcalm, d, hg⟩ := b.flush_calm hcalm hf
  obtain ⟨g', hwait, hcalm⟩ := LawfulFile.sync_calm hcalm hg
  have hg' := LawfulFile.sync_holds hg hwait
  obtain ⟨g'', hwrite, hcalm⟩ := LawfulFile.overwrite_calm log.header.encode hcalm hg'
  obtain ⟨n, -, hg'', -⟩ := LawfulFile.overwrite_holds hg' hwrite
  obtain ⟨f', hwait', hcalm⟩ := LawfulFile.sync_calm hcalm hg''
  have hfirst : (b.flush <* File.sync : FileM φ Buffer) f =
      (.ok { b with pending := [] }, g') :=
    (File.bind_of_ok hflush _).trans (File.bind_of_ok hwait _)
  have hsecond : (File.overwrite log.header.encode *> File.sync : FileM φ Unit) g' =
      (.ok (), f') := (File.bind_of_ok hwrite _).trans hwait'
  exact ⟨f', sync_of_ok hb hfirst hsecond, hcalm⟩

end Log

end Leaderboard
