import Leaderboard.Proofs.Log.Rollback
import Leaderboard.Proofs.Store.Durable

/-!
# Durable stores whose writes fail

When a write of entry bytes fails, the three things that a durable store has go apart.
The records have all puts that were acknowledged, and not the one that failed.  The log
has given up its buffer.  The file is cut back to the last sync.

`Durable.Served` says how a store comes about that was opened and then took requests,
and keeps beside it the puts that were acknowledged and what reads told at the last
sync.  `Durable.failed_write_unseen` says what becomes of such a store when a write
fails: reads still tell the acknowledged puts and nothing else, nothing is written any
more, and when the directory is opened again reads tell what they told at the last
sync.  If every put is synced, that is all of the acknowledged puts.
-/

namespace Leaderboard

open File (Holds Finds)
open LogEntry (encodeAll)

namespace Durable

variable {φ : Type} [File φ]

/-- Reads tell these contents, and change nothing. -/
def Tells (s : Durable φ) (c : Contents) : Prop :=
  ∀ key, ByteStore.get key s = (.ok (c key), s)

theorem Keeps.tells {s : Durable φ} {es : List LogEntry} {last : Mark} {synced : Bool}
    (h : s.Keeps es last synced) : s.Tells (entriesHold es) := h.get_eq

theorem Tells.unique {s : Durable φ} {c d : Contents} (hc : s.Tells c) (hd : s.Tells d) :
    c = d := by
  funext key
  have hget := hc key
  rw [hd key] at hget
  injection hget with hreply
  injection hreply with hvalue
  exact hvalue.symm

/-! ## Requests to write -/

/-- Asks a store to serve a request to write. -/
def ask : Log.Request → StoreM (Durable φ) Unit
  | .append e => ByteStore.put e.key e.value
  | .sync => ByteStore.sync

/-- A store that was opened with the contents `first` and then took requests; the puts
that it acknowledged, and what reads told at the last sync or at first. -/
inductive Served (first : Contents) :
    Durable φ → List (Bytes × Bytes) → Contents → Prop where
  /-- The store was opened. -/
  | opened {s₀ s : Durable φ} {c : Bytes} {settings : StoreSettings} {mark : String} :
      Finds s₀.file c → openAs settings mark s₀ = (.ok (), s) → s.Tells first →
      Served first s [] first
  /-- A put was acknowledged, and is not synced yet. -/
  | put {s s' : Durable φ} {acked : List (Bytes × Bytes)} {kept : Contents}
      {key value : Bytes} : Served first s acked kept → s.settings.syncOnWrite = false →
      ByteStore.put key value s = (.ok (), s') →
      Served first s' (acked ++ [(key, value)]) kept
  /-- A put was synced and acknowledged.  A file has no more bytes than a number of eight
  bytes tells. -/
  | putSynced {s s' : Durable φ} {acked : List (Bytes × Bytes)} {kept kept' : Contents}
      {key value bytes : Bytes} : Served first s acked kept → s.settings.syncOnWrite = true →
      ByteStore.put key value s = (.ok (), s') → Holds s'.file bytes →
      bytes.length < UInt64.size → s'.Tells kept' →
      Served first s' (acked ++ [(key, value)]) kept'
  /-- A put was refused for the length of a field. -/
  | refused {s s' : Durable φ} {acked : List (Bytes × Bytes)} {kept : Contents}
      {e : LogEntry} {failure : Failure} : Served first s acked kept → ¬ e.Fits →
      ByteStore.put e.key e.value s = (.error failure, s') → Served first s' acked kept
  /-- All puts were synced. -/
  | synced {s s' : Durable φ} {acked : List (Bytes × Bytes)} {kept kept' : Contents}
      {bytes : Bytes} : Served first s acked kept → ByteStore.sync s = (.ok (), s') →
      Holds s'.file bytes → bytes.length < UInt64.size → s'.Tells kept' →
      Served first s' acked kept'
  /-- Something about the file has changed, but not its bytes. -/
  | changed {s : Durable φ} {acked : List (Bytes × Bytes)} {kept : Contents} {file : φ}
      {d : Bytes} : Served first s acked kept → Holds s.file d → Holds file d →
      Served first { s with file } acked kept

variable [LawfulFile φ] {first kept : Contents} {s s' : Durable φ}
  {acked : List (Bytes × Bytes)} {es : List LogEntry} {m : Mark}

/-- What holds of a store that took requests, between them. -/
inductive Agrees (first : Contents) (s : Durable φ) (acked : List (Bytes × Bytes))
    (kept : Contents) : Prop where
  /-- The log has entries that come to the acknowledged puts, and its mark has entries
  that come to what was synced. -/
  | intro (es : List LogEntry) (m : Mark) : s.Keeps es m false →
      entriesHold es = first.write acked → entriesHold m.entries = kept →
      (s.settings.syncOnWrite = true → kept = first.write acked) → Agrees first s acked kept

/-- A put that is acknowledged was not too long, and is kept. -/
theorem Keeps.put_of_ok {key value : Bytes} (h : s.Keeps es m false)
    (hput : ByteStore.put key value s = (.ok (), s')) :
    s'.Keeps (es ++ [⟨key, value⟩]) m s.settings.syncOnWrite ∧ s'.settings = s.settings := by
  by_cases he : (⟨key, value⟩ : LogEntry).Fits
  · obtain ⟨-, hkeeps, -⟩ := (h.put he).of_ne (by rw [hput]; nofun)
    rwa [hput] at hkeeps
  · have hrefused := h.put_refused he
    rw [hput] at hrefused
    cases hrefused

omit [File φ] [LawfulFile φ] in
theorem entriesHold_write {key value : Bytes} (h : entriesHold es = first.write acked) :
    entriesHold (es ++ [⟨key, value⟩]) = first.write (acked ++ [(key, value)]) := by
  rw [entriesHold_append, h, Contents.write_append]
  rfl

theorem Served.agrees (h : Served first s acked kept) : Agrees first s acked kept := by
  induction h with
  | opened hfile hopen hfirst =>
      obtain ⟨m, hkeeps⟩ := keeps_of_openAs hfile hopen
      have hsame := hkeeps.tells.unique hfirst
      exact ⟨_, m, hkeeps, hsame, hsame, fun _ => rfl⟩
  | put _ hsyncs hput ih =>
      obtain ⟨es, m, hkeeps, hes, hm, -⟩ := ih
      obtain ⟨hkeeps', hsettings⟩ := hkeeps.put_of_ok hput
      rw [hsyncs] at hkeeps'
      refine ⟨_, m, hkeeps', entriesHold_write hes, hm, fun htrue => ?_⟩
      rw [hsettings, hsyncs] at htrue
      cases htrue
  | putSynced _ hsyncs hput hfile hlt hkept ih =>
      obtain ⟨es, m, hkeeps, hes, -, -⟩ := ih
      obtain ⟨hkeeps', -⟩ := hkeeps.put_of_ok hput
      rw [hsyncs] at hkeeps'
      have hnew := hkeeps'.tells.unique hkept
      obtain ⟨m', hkeeps'', hm'⟩ := hkeeps'.settle fun _ => hkeeps'.length_eq hfile ▸ hlt
      refine ⟨_, m', hkeeps'', entriesHold_write hes, ?_,
        fun _ => hnew.symm.trans (entriesHold_write hes)⟩
      rw [hm', if_pos rfl, hnew]
  | refused _ he hput ih =>
      obtain ⟨es, m, hkeeps, hes, hm, hall⟩ := ih
      rw [hkeeps.put_refused he] at hput
      cases hput
      exact ⟨es, m, hkeeps, hes, hm, hall⟩
  | synced _ hsync hfile hlt hkept ih =>
      obtain ⟨es, m, hkeeps, hes, -, -⟩ := ih
      obtain ⟨-, ⟨hkeeps', -⟩, -⟩ := hkeeps.sync.of_ne (by rw [hsync]; nofun)
      rw [hsync] at hkeeps'
      have hnew := hkeeps'.tells.unique hkept
      obtain ⟨m', hkeeps'', hm'⟩ := hkeeps'.settle fun _ => hkeeps'.length_eq hfile ▸ hlt
      refine ⟨_, m', hkeeps'', hes, ?_, fun _ => hnew.symm.trans hes⟩
      rw [hm', if_pos rfl, hnew]
  | changed _ hf hfile ih =>
      obtain ⟨es, m, hkeeps, hes, hm, hall⟩ := ih
      exact ⟨es, m, hkeeps.of_holds hf hfile, hes, hm, hall⟩

/-! ## Stores that have given up -/

/-- The log takes no more entries, the file has the bytes of a mark, and the records are
still those of all entries. -/
inductive Stuck (s : Durable φ) (es : List LogEntry) (m : Mark) : Prop where
  | intro (session : Session) : s.session = some session → session.records = replayed es →
      session.log.buffer = none → (∃ h, m.Whole h) → Holds s.file m.bytes → Stuck s es m

omit [LawfulFile φ] in
theorem Stuck.tells (h : s.Stuck es m) : s.Tells (entriesHold es) := by
  intro key
  obtain ⟨session, hopen, hrecords, -, -, -⟩ := h
  rw [get_of_open hopen, hrecords, getElem?_replayed]

omit [LawfulFile φ] in
/-- Every request to write is refused and changes nothing. -/
theorem Stuck.ask_refused (h : s.Stuck es m) (later : Log.Request) :
    ∃ failure, ask later s = (.error failure, s) ∧ (later.Fits → failure = .logFailed) ∧
      (¬ later.Fits → ∃ field, failure = .encode field .fieldTooLong) := by
  obtain ⟨session, hopen, -, hnone, -, -⟩ := h
  obtain ⟨failure, hserve, hfailure⟩ := later.serve_of_none hnone s.file
  refine ⟨failure, ?_, hfailure⟩
  cases later with
  | append e => exact put_of_error hopen (Log.bind_of_error hserve _)
  | sync =>
      show ByteStore.sync s = _
      rw [sync_eq hopen hserve, ← hopen]

omit [LawfulFile φ] in
/-- Nothing is written when the store is closed. -/
theorem Stuck.close_file (h : s.Stuck es m) : s.close.file = s.file := by
  obtain ⟨session, hopen, -, hnone, -, -⟩ := h
  simp only [close, hopen, Log.close_of_none hnone]

/-! ## Writes that break off -/

/-- Serving the request breaks off in a write of entry bytes, or when it waits for these
to be on the disk, and leaves this file before it is cut. -/
inductive Breaks (s : Durable φ) (cause : IoFault) (torn : φ) : Log.Request → Prop where
  /-- The log breaks off in an append or in a sync that it was asked for. -/
  | asked {session : Session} {request : Log.Request} : s.session = some session →
      request.Breaks session.log s.file cause torn → Breaks s cause torn request
  /-- It breaks off in the sync that every put is to have. -/
  | putSync {session : Session} {e : LogEntry} {log : Log} {file : φ} :
      s.session = some session → s.settings.syncOnWrite = true →
      Log.append e session.log s.file = ((.ok (), log), file) →
      Log.Request.sync.Breaks log file cause torn → Breaks s cause torn (.append e)

/-- What a request comes to that breaks off, by the log that breaks off in it. -/
theorem Breaks.ask_eq {cause : IoFault} {torn : φ} {request : Log.Request} {session : Session}
    (hbreak : s.Breaks cause torn request) (hopen : s.session = some session)
    (htracks : session.log.Tracks s.file es m) :
    ∃ log file es' part, log.Tracks file es' m ∧ log.durable = session.log.durable ∧
      Log.Request.Breaks log file cause torn part ∧
      ask request s = (.error (.io cause), { s with
        file := log.rolledBack torn, session := some { session with log := log.gaveUp } }) := by
  cases hbreak with
  | @asked session' request hopen' hbreak =>
      rw [hopen] at hopen'
      cases hopen'
      refine ⟨_, _, es, request, htracks, rfl, hbreak, ?_⟩
      have hserve := request.serve_of_breaks hbreak
      cases request with
      | append e => exact put_eq hopen (Log.bind_of_error hserve _)
      | sync => exact sync_eq hopen hserve
  | @putSync session' e log file hopen' hsyncs happend hbreak =>
      rw [hopen] at hopen'
      cases hopen'
      have hadd : Log.add s.settings.syncOnWrite e session.log s.file =
          ((.error (.io cause), log.gaveUp), log.rolledBack torn) := by
        rw [hsyncs, Log.add, Log.bind_of_ok happend]
        exact Log.Request.serve_of_breaks hbreak
      obtain ⟨-, b, b', -, -, hlog⟩ := Log.append_eq_ok happend
      refine ⟨log, file, es ++ [e], .sync, htracks.append happend, ?_, hbreak, put_eq hopen hadd⟩
      rw [hlog]
      rfl

/-- A store that keeps its entries is stuck after a request breaks off, if the file can
be cut. -/
theorem Keeps.stuck {cause : IoFault} {torn : φ} {request : Log.Request}
    (h : s.Keeps es m false) (hbreak : s.Breaks cause torn request)
    (hback : ∀ session, s.session = some session →
      ((File.resize session.log.durable : FileM φ Unit) torn).1 = .ok ()) :
    ∃ s', ask request s = (.error (.io cause), s') ∧ s'.Stuck es m := by
  obtain ⟨session, hopen, hrecords, ⟨htracks⟩⟩ := h
  obtain ⟨log, file, es', part, htracks', hdurable, hpart, hask⟩ := hbreak.ask_eq hopen htracks
  have hback := hback session hopen
  rw [← hdurable] at hback
  exact ⟨_, hask, _, rfl, hrecords, rfl, htracks.whole, htracks'.undone hpart hback⟩

/-- On a full disk a sync breaks off at any byte of a put that was acknowledged. -/
theorem exists_breaks {h : Header} {e : LogEntry} {n : Nat} (settings : StoreSettings)
    (hm : m.Whole h) (he : e.Fits) (hn : n < e.width) (hroom : e.width < settings.bufferSize.toNat)
    (hsyncs : settings.syncOnWrite = false) :
    ∃ (s : Durable Disk) (torn : Disk),
      Served (entriesHold m.entries) s [(e.key, e.value)] (entriesHold m.entries) ∧
        s.Breaks .fileTooLarge torn .sync ∧
        ∀ session, s.session = some session →
          ((File.resize session.log.durable : FileM Disk Unit) torn).1 = .ok () := by
  have hfound := Disk.finds_file m.bytes
  obtain ⟨f, hrun, hf⟩ : ∃ f, Log.openFile settings.bufferSize.toNat
      ({ entry := .file m.bytes } : Disk) = (.ok (Log.opened settings.bufferSize.toNat m.entries,
        { entries := m.entries, truncated := 0 }), f) ∧ Holds f m.bytes := by
    rw [hm.bytes_eq] at hfound ⊢
    exact Log.openFile_of_vouches (Disk.calm_file _) hfound hm.known
      (LogEntry.parsed_encodeAll hm.fits) hm.vouches _
  let s₀ : Durable Disk := { file := { entry := .file m.bytes } }
  have hopen : openAs settings "" s₀ = (.ok (), _) := openAs_of_ok rfl rfl hrun
  have hopened := Served.opened hfound hopen fun key => by
    rw [get_of_open rfl, getElem?_replayed]
  have happend : Log.append e (Log.opened settings.bufferSize.toNat m.entries) f =
      ((.ok (), _), f) :=
    Log.append_of_room (b := { capacity := settings.bufferSize.toNat }) he rfl hroom f
  have hput := hopened.put hsyncs (put_eq rfl (by
    rw [hsyncs]
    exact Log.bind_of_ok happend _))
  let full : Disk := { entry := .file m.bytes, limit := some (m.bytes.length + n) }
  have hfull : Holds full m.bytes := Disk.holds_iff.mpr rfl
  have hlimited := hput.changed hf hfull
  have hflush : (File.append e.encode : FileM Disk Unit) full = (.error .fileTooLarge, _) :=
    Disk.append_limited (by rwa [LogEntry.length_encode])
  refine ⟨_, _, hlimited, .asked rfl
    (.sync rfl (File.bind_of_error (File.bind_of_error hflush _) _)), ?_⟩
  intro session hsession
  cases hsession
  show ((File.resize (Header.width + (encodeAll m.entries).length) : FileM Disk Unit) _).1 = .ok ()
  rw [← hm.length_bytes]
  exact congrArg Prod.fst (Disk.resize_eq rfl (List.prefix_append _ _).length_le)

/-- A put that fails never shows.  Whatever failure a put reports, it changes no reply to
a read.  If a request breaks off in a write of entry bytes and the file can be cut,
reads go on to tell the puts that were acknowledged, every request to write is refused
and changes nothing, for the length of a field if that is too long and else since the log
has failed, and so does closing the store; and the directory is opened again with what
reads told at the last sync. -/
theorem failed_write_unseen {cause : IoFault} {torn : φ} {request : Log.Request}
    (h : Served first s acked kept) (hbreak : s.Breaks cause torn request)
    (hback : ∀ session, s.session = some session →
      ((File.resize session.log.durable : FileM φ Unit) torn).1 = .ok ()) :
    (∀ {t t' : Durable φ} {key value : Bytes} {failure : Failure},
      ByteStore.put key value t = (.error failure, t') →
        ∀ k, (ByteStore.get k t').1 = (ByteStore.get k t).1) ∧
    ∃ s', ask request s = (.error (.io cause), s') ∧ s'.Tells (first.write acked) ∧
      (∀ later, ∃ failure, ask later s' = (.error failure, s') ∧
        (later.Fits → failure = .logFailed) ∧
        (¬ later.Fits → ∃ field, failure = .encode field .fieldTooLong)) ∧
      s'.close.file = s'.file ∧
      (∃ d, Holds s'.file d ∧
        ∀ {t : Durable φ} (settings : StoreSettings) (mark : String), t.lock.held = false →
          Finds t.file d → Comes (openAs settings mark) t (.ok ()) fun t' => t'.Tells kept) ∧
      (s.settings.syncOnWrite = true → kept = first.write acked) := by
  obtain ⟨es, m, hkeeps, hes, hm, hall⟩ := h.agrees
  obtain ⟨s', hask, hstuck⟩ := hkeeps.stuck hbreak hback
  refine ⟨get_fst_of_put_error, s', hask, hes ▸ hstuck.tells, hstuck.ask_refused, hstuck.close_file,
    ?_, hall⟩
  obtain ⟨session, -, -, -, ⟨header, hwhole⟩, hfile⟩ := hstuck
  refine ⟨_, hfile, fun settings mark hfree hfound => ?_⟩
  refine (openAs_comes hfree hfound (.whole hwhole) settings mark).mono fun t' ht' => ?_
  obtain ⟨⟨_, hkeeps', -⟩, -⟩ := ht'
  exact hm ▸ hkeeps'.tells

/-- A put is acknowledged, and the disk is full when it is to be synced. -/
theorem failed_write_unseen_disk : ∃ (a b : LogEntry) (s s' t : Durable Disk) (d : Bytes),
    Served (entriesHold [a]) s [(b.key, b.value)] (entriesHold [a]) ∧
      ask .sync s = (.error (.io .fileTooLarge), s') ∧
      s'.Tells ((entriesHold [a]).write [(b.key, b.value)]) ∧ Holds s'.file d ∧
      openAs {} "c" { file := { entry := .file d } } = (.ok (), t) ∧ t.Tells (entriesHold [a]) := by
  have hwhole := Log.whole_settled [⟨[0x61], [0x31]⟩] (by decide) (by decide)
  obtain ⟨s, torn, hserved, hbreak, hback⟩ :=
    exists_breaks (e := ⟨[0x62], [0x32]⟩) (n := 5) {} hwhole (by decide) (by decide) (by decide)
      rfl
  obtain ⟨-, s', hask, htells, -, -, ⟨d, hd, hagain⟩, -⟩ :=
    failed_write_unseen hserved hbreak hback
  obtain ⟨t, hopen, ht, -⟩ := (hagain (t := { file := { entry := .file d } }) {} "c" rfl
    (Disk.finds_file d)).of_calm ⟨rfl, ⟨rfl, nofun⟩, Disk.calm_file d⟩
  exact ⟨_, _, s, s', t, d, hserved, hask, htells, hd, hopen, ht⟩

/-- Not every later put meets a failed log.  After such a write a put with a key that is too long
is refused for that, and once the store is opened again a put is acknowledged. -/
theorem later_put_not_failed :
    ∃ (a b : LogEntry) (s s' t t' : Durable Disk) (torn : Disk) (d : Bytes),
      Served (entriesHold [a]) s [(b.key, b.value)] (entriesHold [a]) ∧
        s.Breaks .fileTooLarge torn .sync ∧
        (∀ session, s.session = some session →
          ((File.resize session.log.durable : FileM Disk Unit) torn).1 = .ok ()) ∧
        ask .sync s = (.error (.io .fileTooLarge), s') ∧
        ask (.append .tooLong) s' = (.error (.encode "key" .fieldTooLong), s') ∧
        Holds s'.file d ∧ openAs {} "c" { file := { entry := .file d } } = (.ok (), t) ∧
        ask (.append b) t = (.ok (), t') := by
  have hwhole := Log.whole_settled [⟨[0x61], [0x31]⟩] (by decide) (by decide)
  have hfits : (⟨[0x62], [0x32]⟩ : LogEntry).Fits := by decide
  obtain ⟨s, torn, hserved, hbreak, hback⟩ :=
    exists_breaks (n := 5) {} hwhole hfits (by decide) (by decide) rfl
  obtain ⟨es, m, hkeeps, -, -, -⟩ := hserved.agrees
  obtain ⟨s', hask, ⟨session, hopen, -, -, ⟨header, hmark⟩, hfile⟩⟩ := hkeeps.stuck hbreak hback
  have hlater := put_of_not_fits hopen LogEntry.not_fits_tooLong
  rw [LogEntry.refusal_tooLong] at hlater
  let found : Durable Disk := { file := { entry := .file m.bytes } }
  have hcalm : found.Calm := ⟨rfl, ⟨rfl, nofun⟩, Disk.calm_file _⟩
  obtain ⟨t, hagain, ⟨⟨m', hkeeps', -⟩, -⟩, hcalm'⟩ :=
    (openAs_comes (s := found) rfl (Disk.finds_file _) (.whole hmark) {} "c").of_calm hcalm
  obtain ⟨t', hput, -⟩ := (hkeeps'.put hfits).of_calm hcalm'
  exact ⟨_, _, s, s', t, t', torn, m.bytes, hserved, hbreak, hback, hask, hlater, hfile, hagain,
    hput⟩

end Durable

end Leaderboard
