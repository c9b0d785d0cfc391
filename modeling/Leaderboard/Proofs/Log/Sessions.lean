import Leaderboard.Proofs.Log.Use

/-!
# Sessions

A log is used in sessions.  Each opens the file, adds entries and syncs, and ends
when the log is let go of or when the program stops.  In the first case what is
buffered is written.  In the second the file has the header of the last sync and
some of the bytes of the entries, at least those that it had at that sync.

`AtRest` says what the file may be between sessions, and keeps beside it the
entries of the log and the marks of all its syncs.  The invariant is `Rests`: the
file is that of the last mark with some of the bytes of the entries added since.
From it `AtRest.survives` follows: the next session finds all that was synced, in
order, and nothing that was not added.
-/

namespace Leaderboard

open File (Holds Finds)
open LawfulFile (Calm)
open LogEntry (encodeAll digested Parsed Longest)

/-! ## Entries behind a mark -/

theorem Header.Vouches.append {h : Header} {es : List LogEntry} (hv : h.Vouches es)
    (fs : List LogEntry) : h.Vouches (es ++ fs) where
  count_le := by
    rw [List.length_append]
    exact Nat.le_add_right_of_le hv.count_le
  checksum_eq hpos := by
    rw [List.take_append_of_le_length hv.count_le]
    exact hv.checksum_eq hpos

namespace Mark

variable {m start : Mark} {h : Header} {got : List LogEntry} {u tail : Bytes}

/-- The point at which more entries are in the file, but are not synced. -/
def extended (m : Mark) (got : List LogEntry) : Mark where
  entries := m.entries ++ got
  bytes := m.bytes ++ encodeAll got

theorem extended_nil (m : Mark) : m.extended [] = m := by
  rw [extended, encodeAll, List.flatMap_nil, List.append_nil, List.append_nil]

theorem Whole.take_append (hm : m.Whole h) (since : List LogEntry) :
    m.bytes.take Header.width ++ encodeAll (m.entries ++ since) =
      m.bytes ++ encodeAll since := by
  rw [hm.bytes_eq, List.take_left' h.length_encode, LogEntry.encodeAll_append, List.append_assoc]

/-- The bytes behind a mark are cut into the entries of the mark and those behind. -/
theorem Whole.parsed (hm : m.Whole h) (hp : Parsed u got tail) :
    Parsed (encodeAll m.entries ++ u) (m.entries ++ got) tail := hp.behind hm.fits

/-- What a log begins with whose file goes on behind a mark. -/
theorem Recovered.eq_extended (hm : m.Whole h) (hp : Parsed u got tail)
    (hstart : Recovered (m.bytes ++ u) start) : start = m.extended got := by
  have hbytes : m.bytes ++ u = h.encode ++ (encodeAll m.entries ++ u) := by
    rw [hm.bytes_eq, List.append_assoc]
  have hparsed := hm.parsed hp
  generalize m.bytes ++ u = c at hbytes hstart
  cases hstart with
  | made => exact absurd hbytes.symm (h.encode_append_ne_nil _)
  | read _ hp' _ =>
      rename_i h' body tail' es
      obtain ⟨hheader, rfl⟩ := List.append_inj hbytes (by simp)
      obtain rfl := hp'.longest.unique hparsed.longest
      rw [hheader, extended, hm.bytes_eq, LogEntry.encodeAll_append, List.append_assoc]

end Mark

/-! ## Sessions -/

section

variable {φ : Type} [File φ]

/-- What a log holds can be written to its file `f`, and this leaves the file `f'`. -/
inductive Log.Drains (log : Log) (f f' : φ) : Prop where
  /-- The write does not fail. -/
  | intro {b b' : Buffer} : log.buffer = some b → (b.flush : FileM φ Buffer) f = (.ok b', f') →
      Drains log f f'

/-- It is what letting go of the log leaves. -/
theorem Log.Drains.close_eq {log : Log} {f f' : φ} (h : log.Drains f f') :
    log.close f = ((), f') := by
  obtain ⟨hb, hflush⟩ := h
  rw [Log.close_of_some hb, hflush]

/-- The last sync, or the making of the log if there was none. -/
def Mark.latest (marks : List Mark) : Mark := marks.headD .made

end

/-- The bytes of a log file between sessions, the entries of the log, the marks of all
syncs, the last one first, and whether the last session ended by letting go of the
log. -/
inductive AtRest (φ : Type) [File φ] : Bytes → List LogEntry → List Mark → Bool → Prop where
  /-- There was no session. -/
  | new : AtRest φ [] [] [] true
  /-- A session ended with all entries written. -/
  | dropped {c c' : Bytes} {es₀ es : List LogEntry} {marks ms : List Mark} {clean : Bool}
      {start : Mark} {log : Log} {f f' : φ} : AtRest φ c es₀ marks clean →
      InUse c start log f es ms → log.Drains f f' → Holds f' c' →
      AtRest φ c' es (ms ++ marks) true
  /-- A session ended with the header of the last sync and some of the bytes behind it,
  at least those of that sync. -/
  | crashed {c : Bytes} {es₀ es : List LogEntry} {marks ms : List Mark} {clean : Bool}
      {start : Mark} {log : Log} {f : φ} {n : Nat} : AtRest φ c es₀ marks clean →
      InUse c start log f es ms → (Mark.latest (ms ++ marks)).bytes.length ≤ n →
      AtRest φ (((Mark.latest (ms ++ marks)).bytes.take Header.width ++ encodeAll es).take n)
        es (ms ++ marks) false

/-- The bytes go on behind a mark with some of those of the entries added since, or with
all of them. -/
structure Mark.Leads (m : Mark) (c : Bytes) (es : List LogEntry) (clean : Bool) : Prop where
  /-- The mark is that of a whole file. -/
  whole : ∃ h, m.Whole h
  /-- The entries added since are in order. -/
  front : ∃ since u, c = m.bytes ++ u ∧ es = m.entries ++ since ∧ (∀ e ∈ since, e.Fits) ∧
    u <+: encodeAll since ∧ (clean = true → u = encodeAll since)

/-- What holds between sessions. -/
structure Rests (c : Bytes) (es : List LogEntry) (marks : List Mark) (clean : Bool) : Prop where
  /-- The file is new, or goes on behind the last mark. -/
  leads : (c = [] ∧ es = [] ∧ marks = []) ∨ (Mark.latest marks).Leads c es clean
  /-- The marks before have a first part of the entries of the last one. -/
  earlier : ∀ m ∈ marks, m.entries <+: (Mark.latest marks).entries

section

variable {φ : Type} [File φ] {c c' : Bytes} {es es₀ : List LogEntry}
  {marks ms : List Mark} {clean : Bool} {start m : Mark} {log : Log} {f f' : φ}

/-- Entries that are behind a mark in the file are behind it as those that are added. -/
theorem Log.Buffers.of_extended {got : List LogEntry} (hgot : ∀ e ∈ got, e.Fits)
    (h : log.Buffers f es (m.extended got)) : log.Buffers f es m := by
  obtain ⟨b, since, w, hb, hes, hfits, hf, hpending⟩ := h
  refine .intro b (got ++ since) (encodeAll got ++ w) hb ?_ ?_ ?_ ?_
  · rw [hes, Mark.extended, List.append_assoc]
  · exact fun e he => (List.mem_append.mp he).elim (hgot e) (hfits e)
  · rwa [Mark.extended, List.append_assoc] at hf
  · rw [LogEntry.encodeAll_append, List.append_assoc, hpending]

variable [LawfulFile φ]

theorem InUse.recovered (h : InUse c start log f es ms) : Mark.Recovered c start := by
  induction h with
  | opened hc hopen hf => exact (Log.openFile_recovered hc hopen hf).1
  | appended _ _ ih => exact ih
  | refused _ _ _ ih => exact ih
  | synced _ _ _ _ ih => exact ih
  | changed _ _ _ ih => exact ih

/-- Entries that were there at the beginning or at a sync are there at the last sync. -/
theorem InUse.prefix_last (h : InUse c start log f es ms) :
    ∀ m ∈ ms ++ [start], m.entries <+: (ms.headD start).entries := by
  induction h with
  | opened _ _ _ =>
      intro m hm
      rw [List.mem_singleton.mp hm]
      exact List.prefix_refl _
  | appended _ _ ih => exact ih
  | refused _ _ _ ih => exact ih
  | changed _ _ _ ih => exact ih
  | synced huse _ _ _ ih =>
      intro m hm
      cases hm with
      | head => exact List.prefix_refl _
      | tail _ hm =>
          obtain ⟨_, since, _, _, hes, _, _, _⟩ := huse.tracks.buffered
          exact (ih m hm).trans ⟨since, hes.symm⟩

/-- On a calm file a log can be let go of. -/
theorem Log.Tracks.drains_calm (h : log.Tracks f es m) (hcalm : Calm f) :
    ∃ (f' : φ) (c' : Bytes), log.Drains f f' ∧ Holds f' c' := by
  obtain ⟨b, since, w, hb, -, -, hf, -⟩ := h.buffered
  obtain ⟨f', hflush, -, c', hf'⟩ := b.flush_calm hcalm hf
  exact ⟨f', c', .intro hb hflush, hf'⟩

namespace Rests

/-- A session begins with some of the entries that were added since the last sync. -/
theorem start_eq (h : Rests c es marks clean) (hstart : Mark.Recovered c start) :
    ∃ header got, (Mark.latest marks).Whole header ∧ (∀ e ∈ got, e.Fits) ∧
      start = (Mark.latest marks).extended got := by
  cases h.leads with
  | inl hnew =>
      obtain ⟨rfl, -, rfl⟩ := hnew
      have hmade : start = .made := by
        generalize hc : ([] : Bytes) = c at hstart
        cases hstart with
        | made => rfl
        | read _ _ _ => exact absurd hc.symm (Header.encode_append_ne_nil _ _)
      exact ⟨_, [], Mark.whole_made, nofun, hmade.trans (Mark.extended_nil _).symm⟩
  | inr hleads =>
      obtain ⟨header, hwhole⟩ := hleads.whole
      obtain ⟨since, u, rfl, -, hfits, hfront, -⟩ := hleads.front
      obtain ⟨got, tail, hp⟩ := LogEntry.exists_parsed u
      exact ⟨header, got, hwhole, hp.fits, hstart.eq_extended hwhole hp⟩

/-- What a session leaves in the file and in the buffer are the entries added since the
last sync, which may be one of an earlier session. -/
theorem session (h : Rests c es₀ marks clean) (huse : InUse c start log f es ms) :
    (∃ header, (Mark.latest (ms ++ marks)).Whole header) ∧
      log.Buffers f es (Mark.latest (ms ++ marks)) ∧
      ∀ m ∈ ms ++ marks, m.entries <+: (Mark.latest (ms ++ marks)).entries := by
  obtain ⟨header, got, hwhole, hgot, rfl⟩ := h.start_eq huse.recovered
  have htracks := huse.tracks
  have hprefix := huse.prefix_last
  cases ms with
  | nil =>
      -- the last sync is one of an earlier session, and this one began behind it
      exact ⟨⟨header, hwhole⟩, htracks.buffered.of_extended hgot, h.earlier⟩
  | cons last ms =>
      refine ⟨htracks.whole, htracks.buffered, fun m hm => ?_⟩
      rw [List.mem_append] at hm
      cases hm with
      | inl hm => exact hprefix m (List.mem_append_left _ hm)
      | inr hm =>
          have hstart := hprefix _ (List.mem_append_right _ (List.mem_singleton.mpr rfl))
          exact (h.earlier m hm).trans ((List.prefix_append _ _).trans hstart)

end Rests

/-- Between sessions the file goes on behind the last mark. -/
theorem AtRest.rests (h : AtRest φ c es marks clean) : Rests c es marks clean := by
  induction h with
  | new => exact ⟨.inl ⟨rfl, rfl, rfl⟩, nofun⟩
  | dropped _ huse hdrains hc' ih =>
      obtain ⟨hwhole, hbuffers, hprefix⟩ := ih.session huse
      refine ⟨.inr ⟨hwhole, ?_⟩, hprefix⟩
      obtain ⟨hb, hflush⟩ := hdrains
      obtain ⟨since, w, hes, hfits, hf, hpending⟩ := hbuffers.since hb
      obtain ⟨v, hv, hdone⟩ := Buffer.appends_flush _ hf hflush
      obtain ⟨-, rfl⟩ := hdone _ rfl
      rw [List.append_assoc, hpending] at hv
      exact ⟨since, _, hc'.unique hv, hes, hfits, List.prefix_refl _, fun _ => rfl⟩
  | crashed _ huse hn ih =>
      obtain ⟨⟨header, hwhole⟩, hbuffers, hprefix⟩ := ih.session huse
      refine ⟨.inr ⟨⟨header, hwhole⟩, ?_⟩, hprefix⟩
      obtain ⟨b, since, w, -, hes, hfits, -, -⟩ := hbuffers
      -- the cut is behind the bytes of the last sync
      rw [hes, hwhole.take_append, List.take_append, List.take_of_length_le hn]
      exact ⟨since, _, rfl, rfl, hfits, List.take_prefix _ _, nofun⟩

/-- What a session finds when it opens the file. -/
structure Survives (c : Bytes) (es : List LogEntry) (marks : List Mark) (clean : Bool)
    (log : Log) (recovery : Recovery) (c' : Bytes) : Prop where
  /-- It finds entries that were added, in order, -/
  front : recovery.entries <+: es
  /-- and all that were synced. -/
  synced : ∀ m ∈ marks, m.entries <+: recovery.entries
  /-- After the log was let go of it finds all entries and cuts nothing. -/
  whole : clean = true → recovery = { entries := es, truncated := 0 }
  /-- The entries are all those that are complete, -/
  longest : Longest (c.drop Header.width) recovery.entries
  /-- and the file is cut behind them. -/
  cut : c ≠ [] → c' = c.take (Header.width + (encodeAll recovery.entries).length) ∧
    c.length = c'.length + recovery.truncated
  /-- The log counts the entries, -/
  count : log.entryCount = recovery.entries.length
  /-- and has their checksum. -/
  checksum : log.checksum = Checksum.initial.write (digested recovery.entries)

/-- After any number of sessions the file is opened, with a first part of the entries
that has all those that were synced. -/
theorem AtRest.survives (h : AtRest φ c es marks clean) (hcalm : Calm f) (hf : Finds f c)
    (capacity : Nat) :
    ∃ log recovery f' c', Log.openFile capacity f = (.ok (log, recovery), f') ∧ Holds f' c' ∧
      Survives c es marks clean log recovery c' := by
  have hearlier := h.rests.earlier
  cases h.rests.leads with
  | inl hnew =>
      obtain ⟨rfl, rfl, rfl⟩ := hnew
      obtain ⟨f', hrun, hf'⟩ := Log.openFile_of_calm hcalm hf (Log.load_nil capacity)
      have hnone : Parsed (encodeAll []) [] [] := LogEntry.parsed_encodeAll (by simp)
      exact ⟨_, _, f', _, hrun, hf', List.prefix_refl _, nofun, fun _ => rfl, hnone.longest,
        fun hne => absurd rfl hne, rfl, rfl⟩
  | inr hleads =>
      generalize Mark.latest marks = last at hearlier hleads
      obtain ⟨header, hwhole⟩ := hleads.whole
      obtain ⟨since, u, rfl, rfl, hfits, hfront, hclean⟩ := hleads.front
      obtain ⟨got, tail, hp⟩ := LogEntry.exists_parsed u
      have hparsed := hwhole.parsed hp
      have hbytes : last.bytes ++ u = header.encode ++ (encodeAll last.entries ++ u) := by
        rw [hwhole.bytes_eq, List.append_assoc]
      have hcut : last.bytes ++ u = header.encode ++ encodeAll (last.entries ++ got) ++ tail := by
        rw [hbytes, hparsed.bytes_eq, List.append_assoc]
      have hwidth : Header.width + (encodeAll (last.entries ++ got)).length =
          (header.encode ++ encodeAll (last.entries ++ got)).length := by
        rw [List.length_append, header.length_encode]
      rw [hbytes] at hf
      obtain ⟨f', hrun, hf'⟩ := Log.openFile_of_vouches hcalm hf hwhole.known hparsed
        (hwhole.vouches.append got) capacity
      refine ⟨_, _, f', _, hrun, hf', ?_, ?_, ?_, ?_, ?_, rfl, rfl⟩
      · exact (List.prefix_append_right_inj _).mpr (hp.of_front hfits hfront)
      · exact fun m hm => (hearlier m hm).trans (List.prefix_append _ _)
      · intro hdropped
        rw [hclean hdropped] at hp
        obtain rfl := hp.longest.unique (LogEntry.parsed_encodeAll hfits).longest
        have htail : tail = [] := List.self_eq_append_right.mp hp.bytes_eq
        rw [htail, List.length_nil]
      · rw [hbytes, List.drop_left' header.length_encode]
        exact hparsed.longest
      · intro _
        rw [hcut, hwidth, List.take_left, List.length_append]
        exact ⟨rfl, rfl⟩

end

/-- On a disk a log may come to have just these entries, all of them synced. -/
theorem AtRest.settled {es : List LogEntry} (hes : ∀ e ∈ es, e.Fits)
    (hlt : Header.width + (encodeAll es).length < UInt64.size) :
    AtRest Disk (Log.settled es).bytes es [Log.settled es] false := by
  have hcalm : Calm ({} : Disk) := ⟨rfl, nofun⟩
  have hfound : Finds ({} : Disk) [] := rfl
  obtain ⟨-, log, -, d, -, -, huse, hcalm⟩ := InUse.exists_of_new hcalm hfound 0 hes
  have htracks : log.Tracks d es Mark.made := huse.tracks
  obtain ⟨b, since, w, hb, -, -, hw, -⟩ := htracks.buffered
  obtain ⟨d', hsync, -⟩ := Log.sync_calm hb hcalm hw
  have hheader : log.header = (Log.opened 0 es).header := by
    rw [Log.header, htracks.count, htracks.checksum]
    rfl
  have hd' := htracks.sync_holds hsync
  rw [hheader] at hd'
  have hlength : (Log.settled es).bytes.length < UInt64.size := by
    rwa [Log.settled, List.length_append, Header.length_encode]
  have hsynced : InUse [] Mark.made _ d' es [Log.settled es] := huse.synced hsync hd' hlength
  have hcrashed := AtRest.new.crashed hsynced (Nat.le_refl _)
  have hbytes : ((Log.settled es).bytes.take Header.width ++ encodeAll es).take
      (Log.settled es).bytes.length = (Log.settled es).bytes := by
    rw [Log.settled, List.take_left' (Header.length_encode _), List.take_length]
  exact hbytes ▸ hcrashed

theorem AtRest.settled_singleton {e : LogEntry} (he : e.Fits)
    (hlt : Header.width + e.encode.length < UInt64.size) :
    AtRest Disk ((Log.opened 0 [e]).header.encode ++ e.encode) [e] [Log.settled [e]] false := by
  have hbytes : encodeAll [e] = e.encode := List.append_nil _
  rw [← hbytes] at hlt ⊢
  exact .settled (fun d hd => List.mem_singleton.mp hd ▸ he) hlt

/-- An entry is added and all of it is still in the buffer when the log is let go of.  The next
session adds and syncs another and ends in a crash. -/
theorem AtRest.survives_disk :
    ∃ (a b : LogEntry) (m : Mark) (c : Bytes) (log : Log) (held : Buffer) (d d' : Disk),
      InUse [] Mark.made log d [a] [] ∧ log.buffer = some held ∧ held.pending = a.encode ∧
        Holds d Mark.made.bytes ∧ log.Drains d d' ∧ m.entries = [a, b] ∧
        AtRest Disk c [a, b] [m] false ∧
        ∃ log recovery d c', Log.openFile 1 ({ entry := .file c } : Disk) =
          (.ok (log, recovery), d) ∧ Holds d c' ∧
          Survives c [a, b] [m] false log recovery c' := by
  have hcalm : Calm ({} : Disk) := ⟨rfl, nofun⟩
  have hfound : Finds ({} : Disk) [] := rfl
  have hfits : (⟨[0x61], [0x31]⟩ : LogEntry).Fits := by decide
  obtain ⟨d₀, hrun, hd₀⟩ := Log.openFile_of_calm hcalm hfound (Log.load_nil 64)
  have hmade : Holds ({ entry := .file Mark.made.bytes } : Disk) Mark.made.bytes :=
    Disk.holds_iff.mpr rfl
  have hopened : InUse [] Mark.made (Log.opened 64 []) ({ entry := .file Mark.made.bytes } : Disk)
      [] [] := .changed (.opened hfound hrun hd₀) hd₀ hmade
  have huse := hopened.appended (Log.append_of_room hfits rfl (by decide) _)
  obtain ⟨d', c, hdrains, hd'⟩ := huse.tracks.drains_calm (Disk.calm_file _)
  have hdropped := AtRest.dropped .new huse hdrains hd'
  obtain ⟨log, recovery, d, c', hrun, hd, hsurvives⟩ :=
    hdropped.survives (Disk.calm_file c) (Disk.finds_file c) 0
  have hrecovery := hsurvives.whole rfl
  subst hrecovery
  have hopened : InUse c ⟨_, c'⟩ log ({ entry := .file c' } : Disk) _ [] :=
    .changed (.opened (Disk.finds_file c) hrun hd) hd (Disk.holds_iff.mpr rfl)
  obtain ⟨log, d, hagain, hcalm⟩ :=
    hopened.append_calm (e := ⟨[0x62], [0x32]⟩) (Disk.calm_file _) (by decide)
  have hlt : Header.width + (encodeAll [⟨[0x61], [0x31]⟩, ⟨[0x62], [0x32]⟩]).length <
      UInt64.size := by decide
  obtain ⟨log, d, bytes, hsynced, -⟩ := hagain.sync_calm hcalm hlt
  have hcrashed := hdropped.crashed hsynced (Nat.le_refl _)
  exact ⟨_, _, _, _, _, _, _, d', huse, rfl, rfl, hmade, hdrains, rfl, hcrashed,
    hcrashed.survives (Disk.calm_file _) (Disk.finds_file _) 1⟩

end Leaderboard
