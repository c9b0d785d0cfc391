import Leaderboard.Proofs.Log.Acceptance
import Leaderboard.Proofs.Log.Use

/-!
# Writes of entries that fail

A write of entry bytes may fail after any number of them is in the file, in an
append or in a sync that has not come to the header yet.  The log then cuts the
file back to its length at the last mark and gives up the buffer.

`broken_write_undone` says that nothing remains of the entries since: the file
has the bytes of the mark, the log changes nothing any more, and the file is
opened again with the entries of the mark.  Later requests are refused since the
log has failed, but for an entry with a field that is too long, which is refused
before the state of the log is looked at (`later_append_not_failed`).
-/

namespace Leaderboard

open File (Holds Finds)
open LawfulFile (Calm)
open LogEntry (encodeAll)

namespace Log

variable {φ : Type} [File φ]

/-! ## Requests -/

/-- A request to write to a log. -/
inductive Request where
  /-- To add an entry. -/
  | append (e : LogEntry)
  /-- To make the entries durable. -/
  | sync
deriving DecidableEq, Repr

namespace Request

/-- Serves a request. -/
def serve : Request → LogM φ Unit
  | append e => Log.append e
  | sync => Log.sync

/-- What is to be written has lengths that can be told. -/
def Fits : Request → Prop
  | append e => e.Fits
  | sync => True

/-- Serving the request breaks off in a write of entry bytes, or when it waits for
these to be on the disk, and leaves this file before it is cut. -/
inductive Breaks (log : Log) (f : φ) (cause : IoFault) (torn : φ) : Request → Prop where
  /-- An append breaks off. -/
  | append {e : LogEntry} {b : Buffer} : log.buffer = some b → e.Fits →
      (b.writeAll e.pieces : FileM φ Buffer) f = (.error cause, torn) →
      Breaks log f cause torn (append e)
  /-- A sync breaks off before the header. -/
  | sync {b : Buffer} : log.buffer = some b →
      (b.flush <* File.sync : FileM φ Buffer) f = (.error cause, torn) →
      Breaks log f cause torn sync

/-- A request that breaks off makes the log give up. -/
theorem serve_of_breaks {log : Log} {f torn : φ} {cause : IoFault} {request : Request}
    (h : request.Breaks log f cause torn) :
    request.serve log f = ((.error (.io cause), log.gaveUp), log.rolledBack torn) := by
  cases h with
  | append hb he hwrite => exact append_of_error he hb hwrite
  | sync hb hflush => exact sync_of_flush_error hb hflush

/-- A log that has given up refuses every request and changes nothing.  The lengths of an
entry are looked at first. -/
theorem serve_of_none {log : Log} (h : log.buffer = none) (request : Request) (f : φ) :
    ∃ failure, request.serve log f = ((.error failure, log), f) ∧
      (request.Fits → failure = .logFailed) ∧
      (¬ request.Fits → ∃ field, failure = .encode field .fieldTooLong) := by
  cases request with
  | append e =>
      by_cases he : e.Fits
      · exact ⟨_, append_of_none he h f, fun _ => rfl, fun hlong => absurd he hlong⟩
      · exact ⟨_, append_of_not_fits he log f, fun hfits => absurd hfits he,
          fun _ => e.exists_refusal_eq⟩
  | sync => exact ⟨_, sync_of_none h f, fun _ => rfl, fun hlong => absurd trivial hlong⟩

end Request

/-! ## Cutting the file back -/

variable [LawfulFile φ] {c : Bytes} {start last : Mark} {log : Log} {f torn : φ}
  {es : List LogEntry} {ms : List Mark} {cause : IoFault} {request : Request}

/-- A file that is cut where the mark ends has the bytes before. -/
theorem rolledBack_holds {d : Bytes} (h : Holds torn d) (hle : log.durable ≤ d.length)
    (hback : ((File.resize log.durable : FileM φ Unit) torn).1 = .ok ()) :
    Holds (log.rolledBack torn) (d.take log.durable) := by
  cases hrun : (File.resize log.durable : FileM φ Unit) torn with
  | mk r g =>
      rw [hrun] at hback
      obtain rfl : r = .ok () := hback
      have hbind : (do File.resize log.durable; File.sync : FileM φ Unit) torn =
          (File.sync : FileM φ Unit) g := File.bind_of_ok hrun _
      rw [rolledBack, hbind]
      exact LawfulFile.sync_holds (LawfulFile.resize_holds h hle hrun) rfl

/-- A request that breaks off has only written behind the bytes of the mark. -/
theorem Tracks.torn_holds (h : log.Tracks f es last) (hbreak : request.Breaks log f cause torn) :
    ∃ w, Holds torn (last.bytes ++ w) := by
  obtain ⟨b₀, since, w, hb₀, -, -, hf, -⟩ := h.buffered
  cases hbreak with
  | append hb he hwrite =>
      obtain ⟨v, hv, -⟩ := Buffer.appends_writeAll _ _ hf hwrite
      exact ⟨w ++ v, by rwa [List.append_assoc] at hv⟩
  | sync hb hflush =>
      obtain ⟨v, hv, -⟩ := Buffer.appends_flush_sync _ hf hflush
      exact ⟨w ++ v, by rwa [List.append_assoc] at hv⟩

/-- If the file can be cut, it has the bytes of the mark again. -/
theorem Tracks.undone (h : log.Tracks f es last)
    (hbreak : request.Breaks log f cause torn)
    (hback : ((File.resize log.durable : FileM φ Unit) torn).1 = .ok ()) :
    Holds (log.rolledBack torn) last.bytes := by
  obtain ⟨w, htorn⟩ := h.torn_holds hbreak
  have hrolled := rolledBack_holds htorn
    (by rw [h.durable, List.length_append]; exact Nat.le_add_right _ _) hback
  rwa [h.durable, List.take_left] at hrolled

/-- On a full disk a sync breaks off at any byte of an entry. -/
theorem exists_breaks {m : Mark} {h : Header} {e : LogEntry} {n : Nat} (hm : m.Whole h)
    (he : e.Fits) (hn : n < e.width) :
    ∃ (log : Log) (d torn : Disk), InUse m.bytes m log d (m.entries ++ [e]) [] ∧
      Request.sync.Breaks log d .fileTooLarge torn ∧
      Holds torn (m.bytes ++ e.encode.take n) ∧
      ((File.resize log.durable : FileM Disk Unit) torn).1 = .ok () := by
  let d : Disk := { entry := .file m.bytes, limit := some (m.bytes.length + n) }
  have hopened : InUse m.bytes m (opened (e.width + 1) m.entries) d m.entries [] :=
    .of_whole hm (Disk.calm_file m.bytes) (Disk.finds_file m.bytes) (Disk.holds_iff.mpr rfl) _
  have hroom : e.width < ({ capacity := e.width + 1 } : Buffer).room := Nat.lt_succ_self _
  have happended := hopened.appended (append_of_room he rfl hroom d)
  have hflush : File.append e.encode d = (.error .fileTooLarge, _) :=
    Disk.append_limited (by simpa using hn)
  refine ⟨_, d, _, happended, .sync rfl (File.bind_of_error (File.bind_of_error hflush _) _),
    rfl, ?_⟩
  rw [happended.tracks.durable]
  exact congrArg Prod.fst (Disk.resize_eq rfl (List.prefix_append _ _).length_le)

/-- A write of entry bytes that fails is undone: if the file can be cut, it has the
bytes of the last mark again, the log refuses every request and writes nothing
when it is let go, and the file is opened with the entries of the mark and not
cut.  An entry with a field that is too long is refused for its length, any other
request since the log has failed. -/
theorem broken_write_undone (h : InUse c start log f es ms)
    (hbreak : request.Breaks log f cause torn)
    (hback : ((File.resize log.durable : FileM φ Unit) torn).1 = .ok ()) :
    ∃ log' f', request.serve log f = ((.error (.io cause), log'), f') ∧
      Holds f' (ms.headD start).bytes ∧
      (∀ (later : Request) (g : φ), ∃ failure,
        later.serve log' g = ((.error failure, log'), g) ∧
          (later.Fits → failure = .logFailed) ∧
          (¬ later.Fits → ∃ field, failure = .encode field .fieldTooLong)) ∧
      (∀ g : φ, log'.close g = ((), g)) ∧
      ∀ (capacity : Nat) {g : φ}, Calm g → Finds g (ms.headD start).bytes →
        ∃ log'' g', openFile capacity g =
            (.ok (log'', { entries := (ms.headD start).entries, truncated := 0 }), g') ∧
          Holds g' (ms.headD start).bytes := by
  have htracks := h.tracks
  obtain ⟨header, hwhole⟩ := htracks.whole
  refine ⟨log.gaveUp, log.rolledBack torn, request.serve_of_breaks hbreak,
    htracks.undone hbreak hback, fun later g => later.serve_of_none rfl g,
    fun g => close_of_none rfl g, ?_⟩
  intro capacity g hcalm hg
  rw [hwhole.bytes_eq] at hg ⊢
  exact openFile_whole hcalm hg hwhole.known hwhole.fits hwhole.vouches capacity

/-- A second entry of which five bytes were written when the disk was full. -/
theorem broken_write_undone_disk : ∃ (a b : LogEntry) (log log' : Log) (d torn d' : Disk),
    InUse (settled [a]).bytes (settled [a]) log d [a, b] [] ∧
      Request.sync.Breaks log d .fileTooLarge torn ∧
      Holds torn ((settled [a]).bytes ++ b.encode.take 5) ∧
      ((File.resize log.durable : FileM Disk Unit) torn).1 = .ok () ∧
      Request.sync.serve log d = ((.error (.io .fileTooLarge), log'), d') ∧
      Holds d' (settled [a]).bytes := by
  have hwhole := whole_settled [⟨[0x61], [0x31]⟩] (by decide) (by decide)
  obtain ⟨log, d, torn, huse, hbreak, htorn, hback⟩ :=
    exists_breaks (e := ⟨[0x62], [0x32]⟩) (n := 5) hwhole (by decide) (by decide)
  obtain ⟨log', d', hserve, hd', -⟩ := broken_write_undone huse hbreak hback
  exact ⟨_, _, log, log', d, torn, d', huse, hbreak, htorn, hback, hserve, hd'⟩

/-- Not every later request meets a failed log.  After such a write an append with a key that is
too long is refused for that, and once the file is opened again an append is served. -/
theorem later_append_not_failed :
    ∃ (a b : LogEntry) (log log' again again' : Log) (d torn d' g : Disk),
      InUse (settled [a]).bytes (settled [a]) log d [a, b] [] ∧
        Request.sync.Breaks log d .fileTooLarge torn ∧
        ((File.resize log.durable : FileM Disk Unit) torn).1 = .ok () ∧
        Request.sync.serve log d = ((.error (.io .fileTooLarge), log'), d') ∧
        (Request.append .tooLong).serve log' d' =
          ((.error (.encode "key" .fieldTooLong), log'), d') ∧
        Holds d' (settled [a]).bytes ∧
        openFile 64 ({ entry := .file (settled [a]).bytes } : Disk) =
          (.ok (again, { entries := [a], truncated := 0 }), g) ∧
        (Request.append b).serve again g = ((.ok (), again'), g) := by
  have hwhole := whole_settled [⟨[0x61], [0x31]⟩] (by decide) (by decide)
  have hfits : (⟨[0x62], [0x32]⟩ : LogEntry).Fits := by decide
  obtain ⟨log, d, torn, huse, hbreak, -, hback⟩ :=
    exists_breaks (n := 5) hwhole hfits (by decide)
  have hlater := append_of_not_fits LogEntry.not_fits_tooLong log.gaveUp (log.rolledBack torn)
  rw [LogEntry.refusal_tooLong] at hlater
  have hfound := Disk.finds_file (settled [⟨[0x61], [0x31]⟩]).bytes
  rw [hwhole.bytes_eq] at hfound
  obtain ⟨g, hrun, -⟩ := openFile_of_vouches (Disk.calm_file _) hfound hwhole.known
    (LogEntry.parsed_encodeAll hwhole.fits) hwhole.vouches 64
  exact ⟨_, _, log, log.gaveUp, _, _, d, torn, log.rolledBack torn, g, huse, hbreak, hback,
    Request.serve_of_breaks hbreak, hlater, huse.tracks.undone hbreak hback, hrun,
    append_of_room hfits rfl (by decide) g⟩

end Log

end Leaderboard
