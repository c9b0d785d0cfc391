import Leaderboard.Proofs.Log.Opening
import Leaderboard.Proofs.Log.Writing

/-!
# A log in use

`InUse` says how a log and its file come about, once it is opened, by requests
that succeed.  Beside them it keeps what the log was asked for: its entries, and
a `Mark` for each sync, which has the entries and the bytes of the file then.

`Log.Tracks` is what holds of every log in use (`InUse.tracks`).  The file is what
it was at the last mark, with more bytes behind; these and what the buffer holds
are the entries added since, `Log.Buffers`.  The header is still that of the mark,
and speaks for the entries of the mark.

On a calm file use can go on: every entry that fits can be added and every log can
be synced.
-/

namespace Leaderboard

open File (Holds Finds)
open LawfulFile (Calm)
open LogEntry (encodeAll digested Parsed)

/-! ## Marks -/

/-- A point in the life of a log. -/
structure Mark where
  /-- The entries that it had. -/
  entries : List LogEntry
  /-- The bytes of its file. -/
  bytes : Bytes

/-- A log that was just made. -/
def Mark.made : Mark := { entries := [], bytes := ({} : Header).encode }

/-- The file is that of a header and of the entries, for which the header speaks. -/
structure Mark.Whole (m : Mark) (h : Header) : Prop where
  /-- The header is one of this format. -/
  known : h.Known
  /-- It speaks for the entries. -/
  vouches : h.Vouches m.entries
  /-- They are complete. -/
  fits : ∀ e ∈ m.entries, e.Fits
  /-- The file has these bytes. -/
  bytes_eq : m.bytes = h.encode ++ encodeAll m.entries

theorem Mark.whole_made : Mark.made.Whole {} :=
  ⟨by decide, Log.vouches_default [], by simp [made], (List.append_nil _).symm⟩

theorem Mark.Whole.length_bytes {m : Mark} {h : Header} (hm : m.Whole h) :
    m.bytes.length = Header.width + (encodeAll m.entries).length := by
  rw [hm.bytes_eq, List.length_append, h.length_encode]

/-- The mark with which a log begins that is opened from a file of some bytes. -/
inductive Mark.Recovered : Bytes → Mark → Prop where
  /-- An empty file is that of a log that was just made. -/
  | made : Recovered [] Mark.made
  /-- The entries are all that are complete, and the file is cut behind them. -/
  | read {h : Header} {body tail : Bytes} {es : List LogEntry} : h.Known → Parsed body es tail →
      h.Vouches es →
      Recovered (h.encode ++ body) { entries := es, bytes := h.encode ++ encodeAll es }

theorem Mark.Recovered.whole {c : Bytes} {m : Mark} (h : Mark.Recovered c m) :
    ∃ header, m.Whole header := by
  cases h with
  | made => exact ⟨_, whole_made⟩
  | read hknown hp hv => exact ⟨_, hknown, hv, hp.fits, rfl⟩

/-! ## Use -/

/-- A log that was opened from a file of the bytes `c` and then had the mark `start`;
its file, its entries, and the marks of its syncs, the last one first. -/
inductive InUse {φ : Type} [File φ] (c : Bytes) (start : Mark) :
    Log → φ → List LogEntry → List Mark → Prop where
  /-- The log was opened. -/
  | opened {capacity truncated : Nat} {f f' : φ} {log : Log} : Finds f c →
      Log.openFile capacity f = (.ok (log, { entries := start.entries, truncated }), f') →
      Holds f' start.bytes → InUse c start log f' start.entries []
  /-- An entry was added. -/
  | appended {log log' : Log} {f f' : φ} {es : List LogEntry} {ms : List Mark} {e : LogEntry} :
      InUse c start log f es ms → Log.append e log f = ((.ok (), log'), f') →
      InUse c start log' f' (es ++ [e]) ms
  /-- An entry was refused for the length of a field. -/
  | refused {log log' : Log} {f f' : φ} {es : List LogEntry} {ms : List Mark} {e : LogEntry}
      {failure : Failure} : InUse c start log f es ms → ¬ e.Fits →
      Log.append e log f = ((.error failure, log'), f') → InUse c start log' f' es ms
  /-- The entries were synced.  A file has no more bytes than a number of eight bytes
  tells. -/
  | synced {log log' : Log} {f f' : φ} {es : List LogEntry} {ms : List Mark} {bytes : Bytes} :
      InUse c start log f es ms → Log.sync log f = ((.ok (), log'), f') → Holds f' bytes →
      bytes.length < UInt64.size → InUse c start log' f' es ({ entries := es, bytes } :: ms)
  /-- Something about the file has changed, but not its bytes. -/
  | changed {log : Log} {f f' : φ} {es : List LogEntry} {ms : List Mark} {d : Bytes} :
      InUse c start log f es ms → Holds f d → Holds f' d → InUse c start log f' es ms

/-- The bytes behind those of a mark and those that the buffer holds are the entries
added since. -/
inductive Log.Buffers {φ : Type} [File φ] (log : Log) (f : φ) (es : List LogEntry)
    (m : Mark) : Prop where
  /-- The bytes `w` are written, and the others are held. -/
  | intro (b : Buffer) (since : List LogEntry) (w : Bytes) : log.buffer = some b →
      es = m.entries ++ since → (∀ e ∈ since, e.Fits) → Holds f (m.bytes ++ w) →
      w ++ b.pending = encodeAll since → Buffers log f es m

/-- What is said of the buffer of the log. -/
theorem Log.Buffers.since {φ : Type} [File φ] {log : Log} {f : φ} {es : List LogEntry} {m : Mark}
    {b : Buffer} (h : log.Buffers f es m) (hb : log.buffer = some b) :
    ∃ since w, es = m.entries ++ since ∧ (∀ e ∈ since, e.Fits) ∧ Holds f (m.bytes ++ w) ∧
      w ++ b.pending = encodeAll since := by
  cases h with
  | intro b' since w hb' hes hfits hf hpending =>
      rw [hb] at hb'
      cases hb'
      exact ⟨since, w, hes, hfits, hf, hpending⟩

/-- What holds of a log in use, its file and its entries, since the last mark. -/
structure Log.Tracks {φ : Type} [File φ] (log : Log) (f : φ) (es : List LogEntry)
    (last : Mark) : Prop where
  /-- The mark is that of a whole file. -/
  whole : ∃ h, last.Whole h
  /-- The entries are counted, -/
  count : log.entryCount = es.length
  /-- and so is their checksum -/
  checksum : log.checksum = Checksum.initial.write (digested es)
  /-- and the length of the file with all of them. -/
  written : log.written = Header.width + (encodeAll es).length
  /-- The file is cut to its length at the mark when a write fails. -/
  durable : log.durable = last.bytes.length
  /-- The entries added since are behind the mark or in the buffer. -/
  buffered : log.Buffers f es last

namespace Log

variable {φ : Type} [File φ] {c : Bytes} {start last : Mark} {log log' : Log}
  {f f' : φ} {es : List LogEntry} {ms : List Mark}

theorem tracks_opened {h : Header} (hwhole : start.Whole h) (hf : Holds f start.bytes)
    (capacity : Nat) : (opened capacity start.entries).Tracks f start.entries start where
  whole := ⟨h, hwhole⟩
  count := rfl
  checksum := rfl
  written := rfl
  durable := hwhole.length_bytes.symm
  buffered := .intro _ [] [] rfl (List.append_nil _).symm nofun (by rwa [List.append_nil]) rfl

/-- The point at which a log has just these entries and has synced them. -/
def settled (es : List LogEntry) : Mark where
  entries := es
  bytes := (opened 0 es).header.encode ++ encodeAll es

theorem whole_settled (es : List LogEntry) (hfits : ∀ e ∈ es, e.Fits)
    (hlt : es.length < UInt64.size) : (settled es).Whole (opened 0 es).header where
  known := known_header _
  vouches := vouches_header rfl rfl hlt
  fits := hfits
  bytes_eq := rfl

variable [LawfulFile φ]

/-- What a log is that is opened. -/
theorem openFile_recovered {capacity truncated : Nat} (hc : Finds f c)
    (hopen : openFile capacity f = (.ok (log, { entries := start.entries, truncated }), f'))
    (hf' : Holds f' start.bytes) :
    Mark.Recovered c start ∧ log = opened capacity start.entries := by
  obtain ⟨entries, bytes⟩ := start
  dsimp only at hopen ⊢
  obtain ⟨reply, g, hrun, hcome⟩ := openFile_opening hc capacity
  rw [hopen] at hrun
  cases hrun
  cases hcome with
  | inr hio =>
      obtain ⟨-, cause, heq⟩ := hio
      cases heq
  | inl hok =>
      obtain ⟨c', hopening, hc', -⟩ := hok
      obtain rfl : c' = bytes := hc'.unique hf'
      cases hopening with
      | blank => exact ⟨.made, rfl⟩
      | sound hknown hp hv => exact ⟨.read hknown hp hv, rfl⟩

omit [LawfulFile φ] in
/-- The log keeps track if its file is replaced by one with the same bytes. -/
theorem Tracks.of_holds {d : Bytes} (h : log.Tracks f es last) (hf : Holds f d)
    (hf' : Holds f' d) : log.Tracks f' es last := by
  obtain ⟨b, since, w, hb, hes, hfits, hw, hpending⟩ := h.buffered
  obtain rfl := hw.unique hf
  exact ⟨h.whole, h.count, h.checksum, h.written, h.durable,
    .intro b since w hb hes hfits hf' hpending⟩

theorem Tracks.append {e : LogEntry} (h : log.Tracks f es last)
    (happend : append e log f = ((.ok (), log'), f')) : log'.Tracks f' (es ++ [e]) last := by
  obtain ⟨he, b, b', hb, hwrite, rfl⟩ := append_eq_ok happend
  obtain ⟨since, w, hes, hfits, hf, hpending⟩ := h.buffered.since hb
  obtain ⟨v, hv, hdone⟩ := b.appends_writeAll e.pieces hf hwrite
  have hnew : v ++ b'.pending = b.pending ++ e.encode := hdone b' rfl
  refine ⟨h.whole, ?_, ?_, ?_, h.durable, .intro b' (since ++ [e]) (w ++ v) rfl ?_ ?_ ?_ ?_⟩
  · rw [appended, h.count, List.length_append, List.length_singleton]
  · rw [appended, h.checksum, LogEntry.digest_eq, LogEntry.digested_append,
      Checksum.write_append]
  · rw [appended, h.written, LogEntry.encodeAll_append, List.length_append, Nat.add_assoc]
    simp
  · rw [hes, List.append_assoc]
  · intro d hd
    cases List.mem_append.mp hd with
    | inl hd => exact hfits d hd
    | inr hd => exact List.mem_singleton.mp hd ▸ he
  · rwa [List.append_assoc] at hv
  · rw [List.append_assoc, hnew, ← List.append_assoc, hpending, LogEntry.encodeAll_append]
    simp

/-- The file with all the entries. -/
theorem Tracks.flushed {b b' : Buffer} {flushed : φ} (h : log.Tracks f es last)
    (hb : log.buffer = some b)
    (hflush : (b.flush <* File.sync : FileM φ Buffer) f = (.ok b', flushed)) :
    b'.pending = [] ∧ ∃ header since, last.Whole header ∧ es = last.entries ++ since ∧
      (∀ e ∈ es, e.Fits) ∧ Holds flushed (header.encode ++ encodeAll es) := by
  obtain ⟨header, hwhole⟩ := h.whole
  obtain ⟨since, w, hes, hfits, hf, hpending⟩ := h.buffered.since hb
  obtain ⟨v, hv, hdone⟩ := b.appends_flush_sync hf hflush
  obtain ⟨hempty, rfl⟩ := hdone b' rfl
  refine ⟨hempty, header, since, hwhole, hes, ?_, ?_⟩
  · intro e he
    rw [hes] at he
    cases List.mem_append.mp he with
    | inl he => exact hwhole.fits e he
    | inr he => exact hfits e he
  · rw [hes, LogEntry.encodeAll_append, ← List.append_assoc, ← hwhole.bytes_eq, ← hpending,
      ← List.append_assoc]
    exact hv

/-- A log that is synced has a new header before all entries. -/
theorem Tracks.sync_holds (h : log.Tracks f es last) (hsync : sync log f = ((.ok (), log'), f')) :
    Holds f' (log.header.encode ++ encodeAll es) := by
  obtain ⟨b, b', flushed, hb, hflush, hheader, -⟩ := sync_eq_ok hsync
  obtain ⟨-, header, since, -, -, -, hflushed⟩ := h.flushed hb hflush
  obtain ⟨n, -, hholds, hn⟩ := File.overwrite_sync_holds hflushed hheader
  rwa [hn rfl, List.take_length, log.header.length_encode, List.drop_left' header.length_encode]
    at hholds

theorem Tracks.sync {bytes : Bytes} (h : log.Tracks f es last)
    (hsync : sync log f = ((.ok (), log'), f')) (hf' : Holds f' bytes)
    (hlt : bytes.length < UInt64.size) : log'.Tracks f' es { entries := es, bytes } := by
  have hbytes : bytes = log.header.encode ++ encodeAll es := hf'.unique (h.sync_holds hsync)
  have hlength : bytes.length = Header.width + (encodeAll es).length := by
    rw [hbytes, List.length_append, log.header.length_encode]
  have hshort : es.length < UInt64.size := by
    have hle := LogEntry.length_le_length_encodeAll es
    omega
  obtain ⟨b, b', flushed, hb, hflush, -, rfl⟩ := sync_eq_ok hsync
  obtain ⟨hempty, -, -, -, -, hfits, -⟩ := h.flushed hb hflush
  refine ⟨⟨log.header, log.known_header, vouches_header h.count h.checksum hshort, hfits, hbytes⟩,
    h.count, h.checksum, h.written, ?_,
    .intro b' [] [] rfl (List.append_nil _).symm nofun ?_ hempty⟩
  · exact h.written.trans hlength.symm
  · rwa [List.append_nil]

end Log

/-- Every log in use keeps track of its entries. -/
theorem InUse.tracks {φ : Type} [File φ] [LawfulFile φ] {c : Bytes} {start : Mark} {log : Log}
    {f : φ} {es : List LogEntry} {ms : List Mark} (h : InUse c start log f es ms) :
    log.Tracks f es (ms.headD start) := by
  induction h with
  | opened hc hopen hf =>
      obtain ⟨hrecovered, rfl⟩ := Log.openFile_recovered hc hopen hf
      obtain ⟨header, hwhole⟩ := hrecovered.whole
      exact Log.tracks_opened hwhole hf _
  | appended _ happend ih => exact ih.append happend
  | refused _ hfits happend ih =>
      rw [Log.append_of_not_fits hfits] at happend
      cases happend
      exact ih
  | synced _ hsync hf hlt ih => exact ih.sync hsync hf hlt
  | changed _ hf hf' ih => exact ih.of_holds hf hf'

/-- A whole file is opened as the log that was let go of. -/
theorem InUse.of_whole {φ : Type} [File φ] [LawfulFile φ] {m : Mark} {h : Header} {f g : φ}
    (hwhole : m.Whole h) (hcalm : LawfulFile.Calm f) (hf : Finds f m.bytes) (hg : Holds g m.bytes)
    (capacity : Nat) : InUse m.bytes m (Log.opened capacity m.entries) g m.entries [] := by
  have hfound := hf
  rw [hwhole.bytes_eq] at hfound
  obtain ⟨f', hrun, hf'⟩ := Log.openFile_of_vouches hcalm hfound hwhole.known
    (LogEntry.parsed_encodeAll hwhole.fits) hwhole.vouches capacity
  rw [← hwhole.bytes_eq] at hf'
  exact (InUse.opened hf hrun hf').changed hf' hg

section

variable {φ : Type} [File φ] [LawfulFile φ] {c : Bytes} {start : Mark} {log : Log} {f : φ}
  {es : List LogEntry} {ms : List Mark}

/-- On a calm file every entry that fits can be added, -/
theorem InUse.append_calm {e : LogEntry} (h : InUse c start log f es ms) (hcalm : Calm f)
    (he : e.Fits) :
    ∃ (log' : Log) (f' : φ), InUse c start log' f' (es ++ [e]) ms ∧ Calm f' := by
  obtain ⟨b, since, w, hb, -, -, hf, -⟩ := h.tracks.buffered
  obtain ⟨b', f', hrun, hcalm', -, -⟩ := Log.append_calm he hb hcalm hf
  exact ⟨_, f', h.appended hrun, hcalm'⟩

theorem InUse.append_all_calm {fs : List LogEntry} (h : InUse c start log f es ms)
    (hcalm : Calm f) (hfs : ∀ e ∈ fs, e.Fits) :
    ∃ (log' : Log) (f' : φ), (fs.forM Log.append : Log.LogM φ Unit) log f = ((.ok (), log'), f') ∧
      InUse c start log' f' (es ++ fs) ms ∧ Calm f' := by
  induction fs generalizing log f es with
  | nil => exact ⟨log, f, rfl, (List.append_nil es).symm ▸ h, hcalm⟩
  | cons e fs ih =>
      obtain ⟨b, since, w, hb, -, -, hf, -⟩ := h.tracks.buffered
      obtain ⟨b', f', hrun, hcalm', -, -⟩ := Log.append_calm (hfs e (.head _)) hb hcalm hf
      obtain ⟨log', f'', hall, h', hcalm''⟩ :=
        ih (h.appended hrun) hcalm' fun d hd => hfs d (.tail _ hd)
      rw [List.append_assoc] at h'
      exact ⟨log', f'', (Log.bind_of_ok hrun _).trans hall, h', hcalm''⟩

/-- and the entries can be synced if a number of eight bytes tells the length of the
file. -/
theorem InUse.sync_calm (h : InUse c start log f es ms) (hcalm : Calm f)
    (hlt : Header.width + (encodeAll es).length < UInt64.size) :
    ∃ (log' : Log) (f' : φ) (bytes : Bytes),
      InUse c start log' f' es ({ entries := es, bytes } :: ms) ∧ Calm f' := by
  obtain ⟨b, since, w, hb, -, -, hf, -⟩ := h.tracks.buffered
  obtain ⟨f', hrun, hcalm'⟩ := Log.sync_calm hb hcalm hf
  refine ⟨_, f', _, h.synced hrun (h.tracks.sync_holds hrun) ?_, hcalm'⟩
  rwa [List.length_append, log.header.length_encode]

/-- In a calm file that is new a log is opened and all entries of a list are added. -/
theorem InUse.exists_of_new (hcalm : Calm f) (hf : Finds f []) (capacity : Nat)
    (hes : ∀ e ∈ es, e.Fits) :
    ∃ (log log' : Log) (f₁ f₂ : φ),
      Log.openFile capacity f = (.ok (log, { entries := [], truncated := 0 }), f₁) ∧
      (es.forM Log.append : Log.LogM φ Unit) log f₁ = ((.ok (), log'), f₂) ∧
      InUse [] Mark.made log' f₂ es [] ∧ Calm f₂ := by
  obtain ⟨r, f₁, hopen, hcome⟩ := Log.openFile_comes hf (Log.load_nil capacity)
  cases hcome with
  | inr hio => exact absurd hcalm hio.1
  | inl hok =>
      obtain ⟨rfl, hf₁, hcalm₁⟩ := hok
      have huse : InUse [] Mark.made (Log.opened capacity []) f₁ [] [] := .opened hf hopen hf₁
      obtain ⟨log', f₂, hrun, huse', hcalm₂⟩ := huse.append_all_calm (hcalm₁ hcalm) hes
      exact ⟨_, log', f₁, f₂, hopen, hrun, huse', hcalm₂⟩

end

end Leaderboard
