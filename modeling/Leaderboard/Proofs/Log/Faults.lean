import Leaderboard.Proofs.Log.Sessions

/-!
# Writes that go well or meet a fault

A log that keeps track of its entries refuses an entry only if a field of it is too
long.  Any other request succeeds, unless its file has a fault, and then this fault is
what is reported (`Log.Goes`).  The same holds of opening a file that has a header
which speaks for its entries, and no remnant behind them.

On a calm file there is no fault.
-/

namespace Leaderboard

open File (Holds Finds)
open LawfulFile (Calm)
open LogEntry (encodeAll)

namespace Log

variable {φ : Type} [File φ]

/-! ## Adding entries -/

/-- Adds an entry, and syncs it if this is to be done at every write. -/
def add (syncs : Bool) (e : LogEntry) : LogM φ Unit := do
  append e
  if syncs then sync

theorem add_of_not_fits {e : LogEntry} (h : ¬ e.Fits) (syncs : Bool) (log : Log) (f : φ) :
    add syncs e log f = ((.error e.refusal, log), f) :=
  bind_of_error (append_of_not_fits h log f) _

/-- What holds of a log and its file after a write: all entries are synced, or those
since the last mark are not.  The header counts the entries if a number of eight bytes
tells the length of the file. -/
inductive Stands (log : Log) (f : φ) (es : List LogEntry) (last : Mark) : Bool → Prop where
  /-- The entries since the mark are not synced. -/
  | unsynced : log.Tracks f es last → Stands log f es last false
  /-- All are synced. -/
  | synced {bytes : Bytes} : Holds f bytes →
      bytes.length = Header.width + (encodeAll es).length →
      (bytes.length < UInt64.size → log.Tracks f es { entries := es, bytes }) →
      Stands log f es last true

theorem Stands.tracks {log : Log} {f : φ} {es : List LogEntry} {last : Mark} {synced : Bool}
    (h : log.Stands f es last synced)
    (hlt : synced = true → Header.width + (encodeAll es).length < UInt64.size) :
    ∃ m, log.Tracks f es m ∧ m.entries = if synced then es else last.entries := by
  cases h with
  | unsynced htracks => exact ⟨last, htracks, rfl⟩
  | synced _ hlength htracks => exact ⟨_, htracks (hlength ▸ hlt rfl), rfl⟩

variable [LawfulFile φ] {log : Log} {f : φ} {es : List LogEntry} {last : Mark}

/-! ## Going well -/

/-- A request succeeds, or meets a fault of the file, which is not calm then. -/
def Goes (x : LogM φ Unit) (log : Log) (f : φ) (P : Log → φ → Prop) : Prop :=
  ∃ r log' f', x log f = ((r, log'), f') ∧
    ((r = .ok () ∧ P log' f' ∧ (Calm f → Calm f')) ∨
      (¬ Calm f ∧ ∃ cause, r = .error (.io cause)))

theorem Goes.intro {x : LogM φ Unit} {P : Log → φ → Prop}
    (hreply : (x log f).1.1 = .ok () ∨ ∃ cause, (x log f).1.1 = .error (.io cause))
    (hok : ∀ {log' f'}, x log f = ((.ok (), log'), f') → P log' f')
    (hcalm : Calm f → ∃ log' f', x log f = ((.ok (), log'), f') ∧ Calm f') : Goes x log f P := by
  rcases hrun : x log f with ⟨⟨r, log'⟩, f'⟩
  rw [hrun] at hreply
  refine ⟨r, log', f', hrun, ?_⟩
  have hsame (hf : Calm f) : r = .ok () ∧ Calm f' := by
    obtain ⟨log'', f'', hrun', hf''⟩ := hcalm hf
    rw [hrun] at hrun'
    cases hrun'
    exact ⟨rfl, hf''⟩
  cases hreply with
  | inl hr =>
      obtain rfl : r = .ok () := hr
      exact .inl ⟨rfl, hok hrun, fun hf => (hsame hf).2⟩
  | inr hr =>
      obtain ⟨cause, rfl⟩ : ∃ cause, r = .error (.io cause) := hr
      exact .inr ⟨(fun hf => nomatch (hsame hf).1), cause, rfl⟩

theorem Goes.bind {x y : LogM φ Unit} {P Q : Log → φ → Prop} (hx : Goes x log f P)
    (hy : ∀ {log' f'}, P log' f' → Goes y log' f' Q) : Goes (x >>= fun _ => y) log f Q := by
  obtain ⟨r, log', f', hrun, hgoes⟩ := hx
  cases hgoes with
  | inl hok =>
      obtain ⟨rfl, hP, hcalm⟩ := hok
      rw [Goes, bind_of_ok hrun]
      obtain ⟨r, log'', f'', hrun', hgoes⟩ := hy hP
      refine ⟨r, log'', f'', hrun', hgoes.imp ?_ ?_⟩
      · exact fun hok => ⟨hok.1, hok.2.1, fun hf => hok.2.2 (hcalm hf)⟩
      · exact fun hio => ⟨fun hf => hio.1 (hcalm hf), hio.2⟩
  | inr hio =>
      obtain ⟨hf, cause, rfl⟩ := hio
      exact ⟨_, log', f', bind_of_error hrun _, .inr ⟨hf, cause, rfl⟩⟩

/-- An entry that fits is added. -/
theorem Tracks.append_goes {e : LogEntry} (h : log.Tracks f es last) (he : e.Fits) :
    Goes (Log.append e) log f fun log' f' => log'.Tracks f' (es ++ [e]) last := by
  obtain ⟨b, since, w, hb, -, -, hf, -⟩ := h.buffered
  refine .intro ?_ h.append fun hcalm => ?_
  · rcases hwrite : (b.writeAll e.pieces : FileM φ Buffer) f with ⟨(cause | b'), f'⟩
    · exact .inr ⟨cause, by rw [append_of_error he hb hwrite]⟩
    · exact .inl (by rw [append_of_ok he hb hwrite])
  · obtain ⟨b', f', hrun, hcalm', -, -⟩ := append_calm he hb hcalm hf
    exact ⟨_, f', hrun, hcalm'⟩

/-- The entries are synced. -/
theorem Tracks.sync_goes (h : log.Tracks f es last) :
    Goes Log.sync log f fun log' f' => log'.Stands f' es last true := by
  obtain ⟨b, since, w, hb, -, -, hf, -⟩ := h.buffered
  refine .intro ?_ (fun hsync => ?_) fun hcalm => ?_
  · rcases hflush : (b.flush <* File.sync : FileM φ Buffer) f with ⟨(cause | b'), flushed⟩
    · exact .inr ⟨cause, by rw [sync_of_flush_error hb hflush]⟩
    · rcases hheader : (File.overwrite log.header.encode *> File.sync : FileM φ Unit) flushed with
        ⟨(cause | _), f'⟩
      · exact .inr ⟨cause, by rw [sync_of_header_error hb hflush hheader]⟩
      · exact .inl (by rw [sync_of_ok hb hflush hheader])
  · have hholds := h.sync_holds hsync
    refine .synced hholds ?_ (h.sync hsync hholds)
    rw [List.length_append, log.header.length_encode]
  · obtain ⟨f', hrun, hcalm'⟩ := sync_calm hb hcalm hf
    exact ⟨_, f', hrun, hcalm'⟩

theorem Tracks.add_goes {e : LogEntry} (h : log.Tracks f es last) (he : e.Fits) (syncs : Bool) :
    Goes (add syncs e) log f fun log' f' => log'.Stands f' (es ++ [e]) last syncs := by
  refine (h.append_goes he).bind fun {log' f'} h' => ?_
  cases syncs with
  | false => exact ⟨_, log', f', rfl, .inl ⟨rfl, .unsynced h', id⟩⟩
  | true => exact h'.sync_goes

/-! ## Opening -/

/-- The bytes of a file that is opened with some entries and not cut. -/
inductive Stores : Bytes → List LogEntry → Prop where
  /-- The file is new. -/
  | new : Stores [] []
  /-- The file has a header, which speaks for the entries behind it. -/
  | whole {m : Mark} {h : Header} : m.Whole h → Stores m.bytes m.entries

/-- Letting go of a log stores all its entries. -/
theorem Tracks.drains_stores {f' : φ} (h : log.Tracks f es last) (hdrains : log.Drains f f') :
    (∃ c, Holds f' c ∧ Stores c es) ∧ (Calm f → Calm f') := by
  obtain ⟨hb, hflush⟩ := hdrains
  obtain ⟨header, hwhole⟩ := h.whole
  obtain ⟨since, w, rfl, hfits, hf, hpending⟩ := h.buffered.since hb
  refine ⟨?_, fun hcalm => ?_⟩
  · obtain ⟨v, hv, hdone⟩ := Buffer.appends_flush _ hf hflush
    obtain ⟨-, rfl⟩ := hdone _ rfl
    rw [List.append_assoc, hpending] at hv
    refine ⟨_, hv, .whole (m := last.extended since) ⟨hwhole.known, hwhole.vouches.append since,
      fun e he => (List.mem_append.mp he).elim (hwhole.fits e) (hfits e), ?_⟩⟩
    rw [Mark.extended, hwhole.bytes_eq, LogEntry.encodeAll_append, List.append_assoc]
  · obtain ⟨f'', hrun, hcalm', -⟩ := Buffer.flush_calm _ hcalm hf
    rw [hflush] at hrun
    cases hrun
    exact hcalm'

/-- A file that stores entries is opened with them, unless it has a fault. -/
theorem openFile_of_stores {c : Bytes} (hc : Stores c es) (hf : Finds f c) (capacity : Nat) :
    ∃ r f', openFile capacity f = (r, f') ∧
      ((r = .ok (opened capacity es, { entries := es, truncated := 0 }) ∧
          (∃ m, (opened capacity es).Tracks f' es m ∧ m.entries = es) ∧ (Calm f → Calm f')) ∨
        (¬ Calm f ∧ ∃ cause, r = .error (.io cause))) := by
  obtain ⟨m, h, hwhole, rfl, hload⟩ : ∃ (m : Mark) (h : Header), m.Whole h ∧ m.entries = es ∧
      Comes (load capacity : OpenM φ (Log × Recovery)) c
        (.ok (opened capacity m.entries, { entries := m.entries, truncated := 0 })) m.bytes := by
    cases hc with
    | new => exact ⟨_, _, Mark.whole_made, rfl, load_nil capacity⟩
    | @whole m h hwhole =>
        have hheader := readHeader_encode (φ := φ) h (encodeAll m.entries)
        rw [if_pos hwhole.known] at hheader
        refine ⟨m, h, hwhole, rfl, ?_⟩
        rw [hwhole.bytes_eq]
        exact load_of_vouches hheader (LogEntry.parsed_encodeAll hwhole.fits) hwhole.vouches
  obtain ⟨r, f', hrun, hcome⟩ := openFile_comes hf hload
  refine ⟨r, f', hrun, hcome.imp_left fun hok => ⟨hok.1, ⟨m, ?_, rfl⟩, hok.2.2⟩⟩
  exact tracks_opened hwhole hok.2.1 capacity

/-- A log that is opened keeps track of the entries that were found. -/
theorem openFile_eq_ok {c : Bytes} {capacity : Nat} {recovery : Recovery} {f' : φ}
    (hf : Finds f c) (hopen : openFile capacity f = (.ok (log, recovery), f')) :
    ∃ m, log.Tracks f' m.entries m ∧ m.entries = recovery.entries := by
  obtain ⟨reply, g, hrun, hcome⟩ := openFile_opening hf capacity
  rw [hopen] at hrun
  cases hrun
  cases hcome with
  | inl hok =>
      obtain ⟨c', -, hc', -⟩ := hok
      obtain ⟨hrecovered, rfl⟩ :
          Mark.Recovered c ⟨recovery.entries, c'⟩ ∧ log = opened capacity recovery.entries :=
        openFile_recovered hf hopen hc'
      obtain ⟨h, hwhole⟩ := hrecovered.whole
      exact ⟨_, tracks_opened hwhole hc' capacity, rfl⟩
  | inr hio =>
      obtain ⟨-, cause, heq⟩ := hio
      cases heq

end Log

end Leaderboard
