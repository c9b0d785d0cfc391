import Mathlib.Data.List.Induction
import Leaderboard.Proofs.Lock
import Leaderboard.Proofs.Log.Faults
import Leaderboard.Proofs.Store.Faithful
import Leaderboard.Store.Durable

/-!
# The log and the records of a durable store

A durable store keeps what it has three times: in its records, in the buffer of its log
and in its file.  `Durable.Keeps` says that the three agree: the records are those that
the entries of the log come to, and the log keeps track of its entries.

Puts and syncs of a store that keeps its entries either succeed and leave such a store,
or meet a fault (`Durable.Comes`).  So does opening a store whose file stores entries.

The records come to the puts that the entries tell of, one after the other
(`Durable.getElem?_replayed`).  A put that fails changes no record, so a durable store
is a `FaithfulStore`.
-/

namespace Leaderboard

open File (Holds Finds)
open LawfulFile (Calm)
open LogEntry (encodeAll)

namespace Durable

variable {φ : Type} [File φ]

/-! ## Records -/

/-- What the entries of a log come to. -/
def entriesHold (es : List LogEntry) : Contents :=
  Contents.write (fun _ => none) (es.map fun e => (e.key, e.value))

theorem entriesHold_append (es fs : List LogEntry) :
    entriesHold (es ++ fs) = (entriesHold es).write (fs.map fun e => (e.key, e.value)) := by
  rw [entriesHold, List.map_append, Contents.write_append, entriesHold]

theorem replayed_append (es : List LogEntry) (e : LogEntry) :
    replayed (es ++ [e]) = (replayed es).insert e.key e.value := by
  rw [replayed, List.foldl_append, replayed]
  rfl

theorem getElem?_replayed (es : List LogEntry) (key : Bytes) :
    (replayed es)[key]? = entriesHold es key := by
  induction es using List.reverseRecOn generalizing key with
  | nil => exact Std.TreeMap.getElem?_emptyc
  | append_singleton es e ih =>
      rw [replayed_append, entriesHold_append, ← funext ih]
      exact congrFun (MemoryStore.getElem?_insert _ _ _) key

/-! ## Operations -/

section

variable {s s' : Durable φ} {session : Session} {key value : Bytes}

/-- What a put does, by what it does to the log. -/
theorem put_eq (hopen : s.session = some session) {r : Except Failure Unit} {log : Log} {file : φ}
    (hadd : Log.add s.settings.syncOnWrite ⟨key, value⟩ session.log s.file = ((r, log), file)) :
    ByteStore.put key value s = (r, { s with
      file
      session := some {
        log
        records := if r.isOk then session.records.insert key value else session.records } }) := by
  have honLog : onLog (Log.add s.settings.syncOnWrite ⟨key, value⟩) s =
      (r, { s with file, session := some { session with log } }) := by
    simp only [onLog, hopen, hadd]
  show (onLog (Log.add s.settings.syncOnWrite ⟨key, value⟩) >>= fun _ =>
    modify (apply key value) : StoreM (Durable φ) Unit) s = _
  cases r with
  | ok a => exact StoreM.bind_of_ok honLog _
  | error failure => exact StoreM.bind_of_error honLog _

/-- A put that the log fails without a change changes nothing. -/
theorem put_of_error (hopen : s.session = some session) {failure : Failure}
    (hadd : Log.add s.settings.syncOnWrite ⟨key, value⟩ session.log s.file =
      ((.error failure, session.log), s.file)) :
    ByteStore.put key value s = (.error failure, s) := by
  rw [put_eq hopen hadd]
  show (_, { s with file := s.file, session := some session }) = _
  rw [← hopen]

/-- A put that is too long is refused and changes nothing. -/
theorem put_of_not_fits {e : LogEntry} (hopen : s.session = some session) (he : ¬ e.Fits) :
    ByteStore.put e.key e.value s = (.error e.refusal, s) :=
  put_of_error hopen (Log.add_of_not_fits he _ _ _)

theorem sync_eq (hopen : s.session = some session) {r : Except Failure Unit} {log : Log} {file : φ}
    (hsync : Log.sync session.log s.file = ((r, log), file)) :
    ByteStore.sync s = (r, { s with file, session := some { session with log } }) := by
  show onLog Log.sync s = _
  simp only [onLog, hopen, hsync]

theorem put_of_closed (hclosed : s.session = none) (key value : Bytes) :
    ByteStore.put key value s = (.error closed, s) := by
  have honLog : onLog (Log.add s.settings.syncOnWrite ⟨key, value⟩) s = (.error closed, s) := by
    simp only [onLog, hclosed]
  exact StoreM.bind_of_error honLog _

theorem get_of_open (hopen : s.session = some session) (key : Bytes) :
    ByteStore.get key s = (.ok session.records[key]?, s) := by
  show get key s = _
  simp only [get, hopen]

/-- A put that fails changes no reply to a read. -/
theorem get_fst_of_put_error {failure : Failure}
    (hput : ByteStore.put key value s = (.error failure, s')) (k : Bytes) :
    (ByteStore.get k s').1 = (ByteStore.get k s).1 := by
  cases hsession : s.session with
  | none =>
      rw [put_of_closed hsession] at hput
      cases hput
      rfl
  | some session =>
      rcases hadd : Log.add s.settings.syncOnWrite ⟨key, value⟩ session.log s.file with
        ⟨⟨r, log⟩, file⟩
      rw [put_eq hsession hadd] at hput
      cases hput
      rw [get_of_open hsession, get_of_open rfl]
      rfl

end

/-- A put that fails changes no record. -/
instance : FaithfulStore (Durable φ) where
  Sound _ := True
  contents s key := s.session.bind fun session => session.records[key]?
  get_holds := by
    intro s s' r key _ heq
    cases hsession : s.session with
    | none =>
        change get key s = _ at heq
        simp only [get, hsession] at heq
        cases heq
        exact ⟨trivial, by rw [hsession], nofun⟩
    | some session =>
        rw [get_of_open hsession] at heq
        cases heq
        refine ⟨trivial, by rw [hsession], fun value hvalue => ?_⟩
        cases hvalue
        rfl
  put_holds := by
    intro s s' r key value _ heq
    refine ⟨trivial, ?_⟩
    cases hsession : s.session with
    | none =>
        rw [put_of_closed hsession] at heq
        cases heq
        exact ⟨nofun, fun _ _ => by rw [hsession]⟩
    | some session =>
        rcases hadd : Log.add s.settings.syncOnWrite ⟨key, value⟩ session.log s.file with
          ⟨⟨r', log⟩, file⟩
        rw [put_eq hsession hadd] at heq
        cases heq
        cases r with
        | ok a => exact ⟨fun _ => MemoryStore.getElem?_insert _ _ _, nofun⟩
        | error failure => exact ⟨nofun, fun _ _ => rfl⟩

/-! ## Stores that keep their entries -/

/-- The records are what the entries of the log come to, and the log keeps track of
them.  They are synced, or else those since the last mark are not. -/
inductive Keeps (s : Durable φ) (es : List LogEntry) (last : Mark) (synced : Bool) : Prop where
  | intro (session : Session) : s.session = some session → session.records = replayed es →
      session.log.Stands s.file es last synced → Keeps s es last synced

/-- Reads tell what the entries come to. -/
theorem Keeps.get_eq {s : Durable φ} {es : List LogEntry} {last : Mark} {synced : Bool}
    (h : s.Keeps es last synced) (key : Bytes) :
    ByteStore.get key s = (.ok (entriesHold es key), s) := by
  obtain ⟨session, hopen, hrecords, -⟩ := h
  rw [get_of_open hopen, hrecords, getElem?_replayed]

/-- Entries that were synced are those of a mark, if a number of eight bytes tells the
length of the file. -/
theorem Keeps.settle {s : Durable φ} {es : List LogEntry} {last : Mark} {synced : Bool}
    (h : s.Keeps es last synced)
    (hlt : synced = true → Header.width + (encodeAll es).length < UInt64.size) :
    ∃ m, s.Keeps es m false ∧ m.entries = if synced then es else last.entries := by
  obtain ⟨session, hopen, hrecords, hstands⟩ := h
  obtain ⟨m, htracks, hm⟩ := hstands.tracks hlt
  exact ⟨m, ⟨session, hopen, hrecords, .unsynced htracks⟩, hm⟩

/-- If all entries are synced, they and the header are what the file has. -/
theorem Keeps.length_eq {s : Durable φ} {es : List LogEntry} {last : Mark} {bytes : Bytes}
    (h : s.Keeps es last true) (hf : Holds s.file bytes) :
    bytes.length = Header.width + (encodeAll es).length := by
  obtain ⟨session, -, -, hstands⟩ := h
  cases hstands with
  | synced hf' hlength _ => rw [hf.unique hf', hlength]

theorem Keeps.of_holds {s : Durable φ} {es : List LogEntry} {last : Mark} {file : φ} {d : Bytes}
    (h : s.Keeps es last false) (hf : Holds s.file d) (hfile : Holds file d) :
    ({ s with file } : Durable φ).Keeps es last false := by
  obtain ⟨session, hopen, hrecords, ⟨htracks⟩⟩ := h
  exact ⟨session, hopen, hrecords, .unsynced (htracks.of_holds hf hfile)⟩

theorem Keeps.put_refused {s : Durable φ} {es : List LogEntry} {last : Mark} {synced : Bool}
    {e : LogEntry} (h : s.Keeps es last synced) (he : ¬ e.Fits) :
    ByteStore.put e.key e.value s = (.error e.refusal, s) := by
  obtain ⟨session, hopen, -, -⟩ := h
  exact put_of_not_fits hopen he

variable [LawfulFile φ]

/-- No operation in the directory fails. -/
structure Calm (s : Durable φ) : Prop where
  /-- It is a directory. -/
  blocked : s.blocked = false
  /-- The lock file has no fault, -/
  lock : LawfulFile.Calm s.lock.disk
  /-- and neither has the log file. -/
  file : LawfulFile.Calm s.file

/-- An operation is replied to, or meets a fault in the directory, which is not calm
then. -/
def Comes {α : Type} (x : StoreM (Durable φ) α) (s : Durable φ) (reply : Except Failure α)
    (P : Durable φ → Prop) : Prop :=
  ∃ r s', x s = (r, s') ∧
    ((r = reply ∧ P s' ∧ (s.Calm → s'.Calm)) ∨ (¬ s.Calm ∧ ∃ cause, r = .error (.io cause)))

variable {s : Durable φ} {es : List LogEntry} {last : Mark} {e : LogEntry}

section

variable {α β : Type} {x : StoreM (Durable φ) α} {reply : Except Failure α}
  {P Q : Durable φ → Prop}

theorem comes_of_eq (h : x s = (reply, s)) (hP : P s) : Comes x s reply P :=
  ⟨reply, s, h, .inl ⟨rfl, hP, id⟩⟩

theorem Comes.mono (h : Comes x s reply P) (hPQ : ∀ s', P s' → Q s') : Comes x s reply Q := by
  obtain ⟨r, s', hrun, hcomes⟩ := h
  exact ⟨r, s', hrun, hcomes.imp_left fun hok => ⟨hok.1, hPQ s' hok.2.1, hok.2.2⟩⟩

theorem Comes.map (h : Comes x s reply P) (f : α → β) : Comes (f <$> x) s (reply.map f) P := by
  obtain ⟨r, s', hrun, hcomes⟩ := h
  have hmap : (f <$> x) s = (r.map f, s') := by
    show (x >>= fun a => pure (f a)) s = _
    cases r with
    | ok a => exact StoreM.bind_of_ok hrun _
    | error failure => exact StoreM.bind_of_error hrun _
  refine ⟨_, s', hmap, hcomes.imp (fun hok => ⟨by rw [hok.1], hok.2⟩) ?_⟩
  rintro ⟨hs, cause, rfl⟩
  exact ⟨hs, cause, rfl⟩

/-- A reply other than the fault of a file is the one expected. -/
theorem Comes.of_ne (h : Comes x s reply P) (hne : ∀ cause, (x s).1 ≠ .error (.io cause)) :
    (x s).1 = reply ∧ P (x s).2 ∧ (s.Calm → (x s).2.Calm) := by
  obtain ⟨r, s', hrun, hcomes⟩ := h
  rw [hrun] at hne ⊢
  refine hcomes.resolve_right fun hio => ?_
  obtain ⟨-, cause, hr⟩ := hio
  exact hne cause hr

/-- On a calm directory the reply is the one expected. -/
theorem Comes.of_calm (h : Comes x s reply P) (hcalm : s.Calm) :
    ∃ s', x s = (reply, s') ∧ P s' ∧ s'.Calm := by
  obtain ⟨r, s', hrun, hcomes⟩ := h
  obtain ⟨rfl, hP, hcalm'⟩ := hcomes.resolve_right fun hio => hio.1 hcalm
  exact ⟨s', hrun, hP, hcalm' hcalm⟩

end

/-- A put is kept. -/
theorem Keeps.put (h : s.Keeps es last false) (he : e.Fits) :
    Comes (ByteStore.put e.key e.value) s (.ok ()) fun s' =>
      s'.Keeps (es ++ [e]) last s.settings.syncOnWrite ∧
        s'.settings = s.settings := by
  obtain ⟨session, hopen, hrecords, ⟨htracks⟩⟩ := h
  obtain ⟨r, log, file, hadd, hgoes⟩ := htracks.add_goes he s.settings.syncOnWrite
  refine ⟨r, _, put_eq hopen hadd, ?_⟩
  cases hgoes with
  | inl hok =>
      obtain ⟨rfl, hstands, hcalm⟩ := hok
      refine .inl ⟨rfl, ⟨⟨_, rfl, ?_, hstands⟩, rfl⟩,
        fun hs => ⟨hs.blocked, hs.lock, hcalm hs.file⟩⟩
      rw [replayed_append, hrecords]
      rfl
  | inr hio => exact .inr ⟨fun hs => hio.1 hs.file, hio.2⟩

/-- A sync keeps what there is. -/
theorem Keeps.sync (h : s.Keeps es last false) :
    Comes ByteStore.sync s (.ok ()) fun s' => s'.Keeps es last true ∧ s'.settings = s.settings := by
  obtain ⟨session, hopen, hrecords, ⟨htracks⟩⟩ := h
  obtain ⟨r, log, file, hsync, hgoes⟩ := htracks.sync_goes
  refine ⟨r, _, sync_eq hopen hsync, ?_⟩
  cases hgoes with
  | inl hok =>
      obtain ⟨rfl, hstands, hcalm⟩ := hok
      exact .inl ⟨rfl, ⟨⟨_, rfl, hrecords, hstands⟩, rfl⟩,
        fun hs => ⟨hs.blocked, hs.lock, hcalm hs.file⟩⟩
  | inr hio => exact .inr ⟨fun hs => hio.1 hs.file, hio.2⟩

/-! ## Opening -/

omit [LawfulFile φ] in
theorem openAs_of_ok {settings : StoreSettings} {mark : String} {lock : LockFile} {log : Log}
    {recovery : Recovery} {file : φ} (hblocked : s.blocked = false)
    (hacquire : LockFile.acquire mark s.lock = (.ok (), lock))
    (hrun : Log.openFile settings.bufferSize.toNat s.file = (.ok (log, recovery), file)) :
    openAs settings mark s = (.ok (), { s with
      settings, lock, file, session := some { log, records := replayed recovery.entries } }) := by
  simp [openAs, hblocked, hacquire, hrun]

/-- A store that is opened keeps the entries that were found. -/
theorem keeps_of_openAs {settings : StoreSettings} {mark : String} {c : Bytes} {s' : Durable φ}
    (hfile : Finds s.file c) (hopen : openAs settings mark s = (.ok (), s')) :
    ∃ m, s'.Keeps m.entries m false := by
  rw [openAs] at hopen
  split at hopen
  · cases hopen
  · split at hopen
    · cases hopen
    · split at hopen
      · cases hopen
      · rename_i log recovery file hrun
        cases hopen
        obtain ⟨m, htracks, hm⟩ := Log.openFile_eq_ok hfile hrun
        exact ⟨m, ⟨_, rfl, by rw [hm], .unsynced htracks⟩⟩

/-- A store that nobody has open, and whose file stores entries, is opened with them. -/
theorem openAs_comes {c : Bytes} (hfree : s.lock.held = false) (hfile : Finds s.file c)
    (hc : Log.Stores c es) (settings : StoreSettings) (mark : String) :
    Comes (openAs settings mark) s (.ok ()) fun s' =>
      (∃ m, s'.Keeps es m false ∧ m.entries = es) ∧ s'.settings = settings := by
  obtain ⟨r, lock, hacquire, hlock⟩ := LockFile.acquire_of_free hfree mark
  obtain ⟨r', file, hrun, hopened⟩ := Log.openFile_of_stores hc hfile settings.bufferSize.toNat
  cases hblocked : s.blocked with
  | true =>
      refine ⟨.error (.io .alreadyExists), s, ?_, .inr ⟨fun hs => ?_, _, rfl⟩⟩
      · rw [openAs, if_pos hblocked]
      · rw [hs.blocked] at hblocked
        cases hblocked
  | false =>
      cases hlock with
      | inr hio =>
          obtain ⟨hcalm, cause, rfl⟩ := hio
          refine ⟨.error (.io cause), { s with lock }, ?_, .inr ⟨fun hs => hcalm hs.lock, _, rfl⟩⟩
          simp [openAs, hblocked, hacquire]
      | inl hok =>
          obtain ⟨rfl, hlock⟩ := hok
          cases hopened with
          | inr hio =>
              obtain ⟨hcalm, cause, rfl⟩ := hio
              refine ⟨.error (.io cause), { s with lock := lock.release, file }, ?_,
                .inr ⟨fun hs => hcalm hs.file, _, rfl⟩⟩
              simp [openAs, hblocked, hacquire, hrun]
          | inl hok =>
              obtain ⟨rfl, ⟨m, htracks, hm⟩, hfile⟩ := hok
              exact ⟨.ok (), _, openAs_of_ok hblocked hacquire hrun,
                .inl ⟨rfl, ⟨⟨m, ⟨_, rfl, rfl, .unsynced htracks⟩, hm⟩, rfl⟩,
                  fun hs => ⟨hblocked, hlock hs.lock, hfile hs.file⟩⟩⟩

end Durable

end Leaderboard
