import Leaderboard.Proofs.Log.Rollback

/-!
# Headers that are written in part

A sync writes the new header over the old one.  If that breaks off, the header
in the file is the new one up to some byte and the old one behind, `Header.Torn`.
The log cuts the file back to its length at the last mark, but leaves this header
as it is.

`broken_header_stays` says when the file can be opened again: exactly when the
torn header speaks for the entries of the mark.  It does if the write breaks off
before the count.  It does not if the count is written and tells of entries that
were cut off.
-/

namespace Leaderboard

open File (Holds Finds)
open LawfulFile (Calm)
open LogEntry (encodeAll)

/-! ## Torn headers -/

namespace Header

variable {h h' : Header} {n : Nat} {new old left : Header}

/-- The mark and the version come first, -/
theorem take_version (h : Header) :
    h.encode.take 6 = Bytes.ofNatBE 4 h.magic.toNat ++ Bytes.ofNatBE 2 h.version.toNat := by
  rw [encode_eq, ← List.append_assoc]
  exact List.take_left' (by simp)

/-- and then the count. -/
theorem take_count (h : Header) :
    h.encode.take 14 = Bytes.ofNatBE 4 h.magic.toNat ++ (Bytes.ofNatBE 2 h.version.toNat ++
      Bytes.ofNatBE 8 h.entryCount.toNat) := by
  have hbytes : h.encode = Bytes.ofNatBE 4 h.magic.toNat ++ (Bytes.ofNatBE 2 h.version.toNat ++
      Bytes.ofNatBE 8 h.entryCount.toNat) ++ Bytes.ofNatBE 8 h.checksum.toNat := by
    simp [encode_eq]
  rw [hbytes]
  exact List.take_left' (by simp)

/-- Whether a header is one of this format is told by the mark and the version. -/
theorem known_of_take (hknown : h.Known) (heq : h'.encode.take 6 = h.encode.take 6) :
    h'.Known := by
  rw [take_version, take_version] at heq
  obtain ⟨hmagic, hversion⟩ := List.append_inj heq (by simp)
  have hmagic : h'.magic = h.magic :=
    UInt32.toNat_inj.mp (Bytes.ofNatBE_inj h'.magic_lt h.magic_lt hmagic)
  have hversion : h'.version = h.version :=
    UInt16.toNat_inj.mp (Bytes.ofNatBE_inj h'.version_lt h.version_lt hversion)
  rwa [Known, hmagic, hversion]

/-- All headers of this format begin with the same six bytes. -/
theorem take_eq_of_known (hknown : h.Known) (hknown' : h'.Known) :
    h'.encode.take 6 = h.encode.take 6 := by
  obtain ⟨hmagic, hversion⟩ := known_iff.mp hknown
  obtain ⟨hmagic', hversion'⟩ := known_iff.mp hknown'
  rw [take_version, take_version, hmagic, hversion, hmagic', hversion']

theorem entryCount_eq_of_take (heq : h'.encode.take 14 = h.encode.take 14) :
    h'.entryCount = h.entryCount := by
  rw [take_count, take_count, ← List.append_assoc, ← List.append_assoc] at heq
  obtain ⟨-, hcount⟩ := List.append_inj heq (by simp)
  exact UInt64.toNat_inj.mp (Bytes.ofNatBE_inj h'.entryCount_lt h.entryCount_lt hcount)

/-- Of the bytes of a header, `n` are those of the new one and the others those of the
old one. -/
def Torn (n : Nat) (new old left : Header) : Prop :=
  left.encode = new.encode.take n ++ old.encode.drop n

theorem exists_torn (hn : n ≤ width) (new old : Header) : ∃ left : Header, Torn n new old left :=
  exists_encode (by simp only [List.length_append, List.length_take, List.length_drop,
    length_encode]; omega)

namespace Torn

/-- A header that was not begun is the old one. -/
theorem eq_old (h : Torn n new old left) (hnew : new.Known) (hold : old.Known) (hn : n ≤ 6) :
    left = old := by
  have hfront : new.encode.take n = old.encode.take n := by
    have htake := congrArg (List.take n) (take_eq_of_known hold hnew)
    rwa [List.take_take, List.take_take, Nat.min_eq_left hn] at htake
  rw [Torn, hfront, List.take_append_drop] at h
  exact encode_inj h

/-- As many bytes as were written are those of the new header. -/
theorem take_eq (h : Torn n new old left) {m : Nat} (hm : m ≤ n) (hwidth : n ≤ width) :
    left.encode.take m = new.encode.take m := by
  have hlength : m ≤ (new.encode.take n).length := by simp [hwidth, hm]
  rw [h, List.take_append_of_le_length hlength, List.take_take, Nat.min_eq_left hm]

theorem known (h : Torn n new old left) (hnew : new.Known) (hold : old.Known)
    (hwidth : n ≤ width) : left.Known := by
  cases Nat.le_total n 6 with
  | inl hn => exact h.eq_old hnew hold hn ▸ hold
  | inr hn => exact known_of_take hnew (h.take_eq hn hwidth)

/-- The count is the new one if it was written. -/
theorem entryCount_eq (h : Torn n new old left) (hn : 14 ≤ n) (hwidth : n ≤ width) :
    left.entryCount = new.entryCount := entryCount_eq_of_take (h.take_eq hn hwidth)

end Torn

end Header

/-! ## Syncs that break off in the header -/

namespace Log

variable {φ : Type} [File φ] {c : Bytes} {start last : Mark} {log : Log} {f torn : φ}
  {es : List LogEntry} {ms : List Mark} {cause : IoFault} {n : Nat}

/-- A sync has brought the entries to the disk, and breaks off when it has written `n`
bytes of the header, or when it waits for the header.  It leaves this file before it
is cut. -/
inductive HeaderBreaks (log : Log) (f : φ) (n : Nat) (cause : IoFault) (torn : φ) : Prop where
  /-- The entries are in the file, and some of the header is. -/
  | intro {b b' : Buffer} {flushed : φ} {d : Bytes} : log.buffer = some b →
      (b.flush <* File.sync : FileM φ Buffer) f = (.ok b', flushed) → Holds flushed d →
      (File.overwrite log.header.encode *> File.sync : FileM φ Unit) flushed =
        (.error cause, torn) →
      n ≤ Header.width → Holds torn (log.header.encode.take n ++ d.drop n) →
      HeaderBreaks log f n cause torn

theorem sync_of_headerBreaks (h : log.HeaderBreaks f n cause torn) :
    sync log f = ((.error (.io cause), log.gaveUp), log.rolledBack torn) := by
  cases h with
  | intro hb hflush hd hheader hn htorn => exact sync_of_header_error hb hflush hheader

/-- A header with the new count does not speak for fewer entries. -/
theorem Tracks.not_vouches {old left : Header} (h : log.Tracks f es last)
    (hleft : Header.Torn n log.header old left) (hcount : 14 ≤ n) (hn : n ≤ Header.width)
    (hmore : last.entries ≠ es) (hlt : es.length < UInt64.size) :
    ¬ left.Vouches last.entries := by
  intro hv
  have hle := hv.count_le
  rw [hleft.entryCount_eq hcount hn, header, h.count, UInt64.toNat_ofNat_of_lt' hlt] at hle
  obtain ⟨b, since, w, -, rfl, -⟩ := h.buffered
  rw [List.length_append] at hle
  have hnone : since = [] := List.eq_nil_of_length_eq_zero (by omega)
  exact hmore (by rw [hnone, List.append_nil])

variable [LawfulFile φ]

/-- A sync that does not write the whole header has written some of its bytes. -/
theorem Tracks.exists_headerBreaks {b b' : Buffer} {flushed : φ} (h : log.Tracks f es last)
    (hb : log.buffer = some b)
    (hflush : (b.flush <* File.sync : FileM φ Buffer) f = (.ok b', flushed))
    (hheader : (File.overwrite log.header.encode *> File.sync : FileM φ Unit) flushed =
      (.error cause, torn)) : ∃ n, log.HeaderBreaks f n cause torn := by
  obtain ⟨-, old, since, -, -, -, hflushed⟩ := h.flushed hb hflush
  obtain ⟨n, hn, htorn, -⟩ := File.overwrite_sync_holds hflushed hheader
  rw [log.header.length_encode] at hn
  exact ⟨n, .intro hb hflush hflushed hheader hn htorn⟩

/-- The file that is left has the entries of the last mark behind a torn header. -/
theorem Tracks.rolledBack_header (h : log.Tracks f es last)
    (hbreak : log.HeaderBreaks f n cause torn)
    (hback : ((File.resize log.durable : FileM φ Unit) torn).1 = .ok ()) :
    ∃ old left : Header, last.Whole old ∧ Header.Torn n log.header old left ∧ left.Known ∧
      Holds (log.rolledBack torn) (left.encode ++ encodeAll last.entries) := by
  cases hbreak with
  | intro hb hflush hd hheader hn htorn =>
      obtain ⟨-, old, since, hwhole, hes, -, hflushed⟩ := h.flushed hb hflush
      obtain ⟨left, hleft⟩ := Header.exists_torn hn log.header old
      refine ⟨old, left, hwhole, hleft, hleft.known log.known_header hwhole.known hn, ?_⟩
      have hdurable : log.durable = (left.encode ++ encodeAll last.entries).length := by
        rw [h.durable, hwhole.length_bytes, List.length_append, left.length_encode]
      rw [hd.unique hflushed, List.drop_append_of_le_length (old.length_encode.symm ▸ hn),
        ← List.append_assoc, ← hleft, hes, LogEntry.encodeAll_append, ← List.append_assoc] at htorn
      -- both headers have the same length, so the cut is behind the entries of the mark
      have hrolled := rolledBack_holds htorn
        (hdurable ▸ (List.prefix_append _ _).length_le) hback
      rwa [hdurable, List.take_left] at hrolled

/-- On a full disk a sync breaks off at any byte of the header. -/
theorem exists_headerBreaks {m : Mark} {h : Header} {e : LogEntry} (hm : m.Whole h)
    (he : e.Fits) (hn : n < Header.width) :
    ∃ (log : Log) (d torn : Disk), InUse m.bytes m log d (m.entries ++ [e]) [] ∧
      log.HeaderBreaks d n .fileTooLarge torn ∧
      ((File.resize log.durable : FileM Disk Unit) torn).1 = .ok () := by
  have hopened : InUse m.bytes m (opened 0 m.entries) ({ entry := .file m.bytes } : Disk)
      m.entries [] :=
    .of_whole hm (Disk.calm_file _) (Disk.finds_file _) (Disk.holds_iff.mpr rfl) 0
  -- without a buffer the entry is in the file, and the sync has only the header to write
  have hbuffer : (opened 0 m.entries).buffer = some { capacity := 0 } := rfl
  obtain ⟨b, d₁, hrun, -, -, hbound⟩ := append_calm he hbuffer (Disk.calm_file m.bytes)
    (Disk.holds_iff.mpr rfl)
  have hempty : b.pending = [] :=
    List.eq_nil_of_length_eq_zero (Nat.le_zero.mp (hbound (Nat.zero_le _)))
  have happended := hopened.appended hrun
  have htracks : ((opened 0 m.entries).appended e b).Tracks d₁ (m.entries ++ [e]) m :=
    happended.tracks
  obtain ⟨-, -, w, -, -, -, hd₁, -⟩ := htracks.buffered
  let d : Disk := { entry := .file (m.bytes ++ w), limit := some n }
  have hd : Holds d (m.bytes ++ w) := Disk.holds_iff.mpr rfl
  have hflush : (b.flush <* File.sync : FileM Disk Buffer) d =
      (.ok { b with pending := [] }, d) := by
    have hwrite : File.append b.pending d = (.ok (), d) := hempty ▸ Disk.append_nil _ _
    have hheld : (b.flush : FileM Disk Buffer) d = (.ok { b with pending := [] }, d) :=
      File.bind_of_ok hwrite _
    exact File.bind_of_ok hheld _
  have hheader : File.overwrite ((opened 0 m.entries).appended e b).header.encode d =
      (.error .fileTooLarge, _) := Disk.overwrite_limited (by simpa using hn)
  refine ⟨_, d, _, happended.changed hd₁ hd, .intro rfl hflush hd
    (File.bind_of_error hheader _) (Nat.le_of_lt hn) (Disk.holds_iff.mpr rfl), ?_⟩
  rw [htracks.durable]
  refine congrArg Prod.fst (Disk.resize_eq rfl ?_)
  rw [List.length_append, List.length_take, List.length_drop, List.length_append,
    Header.length_encode]
  omega

/-- A header that breaks off is not undone.  The file has the entries of the last mark
behind a header that is torn at that byte, and is opened with these entries if the
header speaks for them, and refused if it does not. -/
theorem broken_header_stays (h : InUse c start log f es ms)
    (hbreak : log.HeaderBreaks f n cause torn)
    (hback : ((File.resize log.durable : FileM φ Unit) torn).1 = .ok ()) :
    ∃ old left : Header, (ms.headD start).Whole old ∧ Header.Torn n log.header old left ∧
      (∃ log' f', sync log f = ((.error (.io cause), log'), f') ∧
        Holds f' (left.encode ++ encodeAll (ms.headD start).entries)) ∧
      (n ≤ 6 → left.Vouches (ms.headD start).entries) ∧
      (14 ≤ n → (ms.headD start).entries ≠ es → es.length < UInt64.size →
        ¬ left.Vouches (ms.headD start).entries) ∧
      ∀ (capacity : Nat) {g : φ}, Calm g →
        Finds g (left.encode ++ encodeAll (ms.headD start).entries) →
        (left.Vouches (ms.headD start).entries → ∃ log' g', openFile capacity g =
          (.ok (log', { entries := (ms.headD start).entries, truncated := 0 }), g')) ∧
        (¬ left.Vouches (ms.headD start).entries → ∃ damage g', openFile capacity g =
          (.error (.corruptedLog damage), g')) := by
  have htracks := h.tracks
  generalize ms.headD start = last at htracks ⊢
  obtain ⟨old, left, hwhole, hleft, hknown, hcut⟩ := htracks.rolledBack_header hbreak hback
  have hn : n ≤ Header.width := by
    cases hbreak with
    | intro _ _ _ _ hn _ => exact hn
  refine ⟨old, left, hwhole, hleft, ⟨_, _, sync_of_headerBreaks hbreak, hcut⟩, ?_, ?_, ?_⟩
  · intro hsix
    exact hleft.eq_old log.known_header hwhole.known hsix ▸ hwhole.vouches
  · intro hcount
    exact htracks.not_vouches hleft hcount hn
  · intro capacity g hcalm hg
    constructor
    · intro hv
      obtain ⟨log', g', hrun, -⟩ := openFile_whole hcalm hg hknown hwhole.fits hv capacity
      exact ⟨log', g', hrun⟩
    · intro hv
      obtain ⟨damage, g', hrun, -⟩ := openFile_of_not_vouches hcalm hg hknown
        (LogEntry.parsed_encodeAll hwhole.fits) hv capacity
      exact ⟨damage, g', hrun⟩

/-- An entry that was synced and one that was not, when the new count is in the header
and the new checksum is not. -/
theorem broken_header_stays_disk : ∃ (a b : LogEntry) (log log' : Log) (d torn d' : Disk),
    InUse (settled [a]).bytes (settled [a]) log d [a, b] [] ∧
      log.HeaderBreaks d 14 .fileTooLarge torn ∧
      ((File.resize log.durable : FileM Disk Unit) torn).1 = .ok () ∧
      sync log d = ((.error (.io .fileTooLarge), log'), d') ∧
      ∃ left : Header, Holds d' (left.encode ++ a.encode) ∧ ¬ left.Vouches [a] := by
  have hwhole := whole_settled [⟨[0x61], [0x31]⟩] (by decide) (by decide)
  obtain ⟨log, d, torn, huse, hbreak, hback⟩ :=
    exists_headerBreaks (e := ⟨[0x62], [0x32]⟩) (n := 14) hwhole (by decide) (by decide)
  obtain ⟨old, left, -, -, ⟨log', d', hrun, hd'⟩, -, hcount, -⟩ :=
    broken_header_stays huse hbreak hback
  have hbytes : encodeAll [⟨[0x61], [0x31]⟩] = LogEntry.encode ⟨[0x61], [0x31]⟩ :=
    List.append_nil _
  exact ⟨_, _, log, log', d, torn, d', huse, hbreak, hback, hrun, left, hbytes ▸ hd',
    hcount (Nat.le_refl _) (by decide) (by decide)⟩

/-- The file of a log with a synced entry is refused after a sync of another entry has
failed, although it could be cut back. -/
theorem synced_entry_refused : ∃ (a b : LogEntry) (log log' : Log) (d torn d' : Disk),
    InUse (settled [a]).bytes (settled [a]) log d [a, b] [] ∧
      log.HeaderBreaks d 14 .fileTooLarge torn ∧
      ((File.resize log.durable : FileM Disk Unit) torn).1 = .ok () ∧
      sync log d = ((.error (.io .fileTooLarge), log'), d') ∧
      ∃ damage d'', openFile 0 ({ d' with limit := none } : Disk) =
        (.error (.corruptedLog damage), d'') := by
  have hwhole := whole_settled [⟨[0x61], [0x31]⟩] (by decide) (by decide)
  obtain ⟨log, d, torn, huse, hbreak, hback⟩ :=
    exists_headerBreaks (e := ⟨[0x62], [0x32]⟩) (n := 14) hwhole (by decide) (by decide)
  have htracks : log.Tracks d _ (settled [⟨[0x61], [0x31]⟩]) := huse.tracks
  obtain ⟨old, left, -, hleft, hknown, hcut⟩ := htracks.rolledBack_header hbreak hback
  have hv := htracks.not_vouches hleft (Nat.le_refl _) (by decide) (by decide) (by decide)
  obtain ⟨damage, d'', hopen, -⟩ := openFile_of_not_vouches (Disk.calm_file _)
    (Disk.finds_file _) hknown (LogEntry.parsed_encodeAll hwhole.fits) hv 0
  rw [← Disk.unlimited_eq hcut] at hopen
  exact ⟨_, _, log, _, d, torn, _, huse, hbreak, hback, sync_of_headerBreaks hbreak, damage, d'',
    hopen⟩

end Log

end Leaderboard
