import Mathlib.Data.Finset.Card
import Mathlib.Data.Finset.Dedup
import Leaderboard.Proofs.Store.Durable

/-!
# Durable stores over any number of sessions

A durable store is a map of keys to values, whenever and however often it is closed and
opened again.  To any run of requests in which nothing in its directory has a fault,
it replies as told by the puts alone: a read finds the value of the latest put to its
key, and the size is the number of keys of puts (`Durable.serves_latest`).  The
settings may be others each time it is opened.

What is kept from one request to the next is `Durable.Keeps`.  Closing the store writes
what its log holds, and opening it reads the entries back.  A directory that is calm
disturbs no request (`Keeps.undisturbed`).
-/

namespace Leaderboard

open File (Holds Finds)
open LogEntry (encodeAll)

namespace Durable

/-! ## Requests -/

/-- A request to a durable store. -/
inductive Request where
  /-- To give a key a value. -/
  | put (key value : Bytes)
  /-- To read a key. -/
  | get (key : Bytes)
  /-- To make every put durable. -/
  | sync
  /-- To tell the number of keys. -/
  | size
  /-- To close the store, if it is open, and to open it under some settings. -/
  | reopen (settings : StoreSettings) (mark : String)

/-- What a request is replied with. -/
inductive Reply where
  /-- The request is done. -/
  | done
  /-- The value of a key, if it has one. -/
  | found (value : Option Bytes)
  /-- A number of keys. -/
  | counted (n : Nat)
deriving DecidableEq, Repr

/-- The value of the latest put to a key. -/
def latest (puts : List LogEntry) (key : Bytes) : Option Bytes :=
  (puts.reverse.find? (·.key = key)).map LogEntry.value

namespace Request

/-- Serves a request. -/
def serve {φ : Type} [File φ] : Request → StoreM (Durable φ) Reply
  | put key value => (fun _ => .done) <$> ByteStore.put key value
  | get key => .found <$> ByteStore.get key
  | sync => (fun _ => .done) <$> ByteStore.sync
  | size => do
      match (← MonadState.get).size? with
      | some n => pure (.counted n)
      | none => throw closed
  | reopen settings mark => (fun _ => .done) <$> do
      modify close
      openAs settings mark

/-- The puts after a request: one that is not too long is the latest. -/
def added (puts : List LogEntry) : Request → List LogEntry
  | put key value => if (⟨key, value⟩ : LogEntry).Fits then puts ++ [⟨key, value⟩] else puts
  | get _ | sync | size | reopen _ _ => puts

/-- What a request is to be replied with after some puts. -/
def answer (puts : List LogEntry) : Request → Except Failure Reply
  | put key value =>
      if (⟨key, value⟩ : LogEntry).Fits then .ok .done
      else .error (LogEntry.refusal ⟨key, value⟩)
  | get key => .ok (.found (latest puts key))
  | sync => .ok .done
  | size => .ok (.counted (puts.map LogEntry.key).toFinset.card)
  | reopen _ _ => .ok .done

end Request

/-- The replies of a store to requests, one after the other. -/
def serveEach {φ : Type} [File φ] : List Request → Durable φ → List (Except Failure Reply)
  | [], _ => []
  | request :: rest, s => (request.serve s).1 :: serveEach rest (request.serve s).2

/-- What requests are to be replied with, one after the other. -/
def answers : List LogEntry → List Request → List (Except Failure Reply)
  | _, [] => []
  | puts, request :: rest => request.answer puts :: answers (request.added puts) rest

/-- The puts after some requests. -/
def putsOf (puts : List LogEntry) (requests : List Request) : List LogEntry :=
  requests.foldl Request.added puts

/-! ## Disturbances -/

section

variable {φ : Type} [File φ]

/-- Nothing in the directory has a fault while a request is served: none is reported,
and if the store is closed, what its log holds is written. -/
structure Request.Undisturbed (request : Request) (s : Durable φ) : Prop where
  /-- No fault is reported. -/
  reported : ∀ cause, (request.serve s).1 ≠ .error (.io cause)
  /-- The log is let go of without a fault. -/
  drained : ∀ settings mark, request = .reopen settings mark → ∀ session,
    s.session = some session → ∃ file, session.log.Drains s.file file

/-- Nothing has a fault while some requests are served. -/
def Undisturbed : List Request → Durable φ → Prop
  | [], _ => True
  | request :: rest, s => request.Undisturbed s ∧ Undisturbed rest (request.serve s).2

end

/-! ## Puts -/

theorem latest_append (puts : List LogEntry) (e : LogEntry) (key : Bytes) :
    latest (puts ++ [e]) key = if e.key = key then some e.value else latest puts key := by
  rw [latest, List.reverse_append]
  by_cases hkey : e.key = key
  · simp [hkey]
  · simp [hkey, latest]

/-- The entries of a log come to the latest puts. -/
theorem entriesHold_eq_latest (puts : List LogEntry) (key : Bytes) :
    entriesHold puts key = latest puts key := by
  induction puts using List.reverseRecOn with
  | nil => rfl
  | append_singleton puts e ih =>
      rw [entriesHold_append, latest_append, ← ih]
      simp only [List.map_cons, List.map_nil, Contents.write_cons, Contents.write_nil,
        Contents.put, @eq_comm _ key]

theorem mem_replayed (puts : List LogEntry) (key : Bytes) :
    key ∈ replayed puts ↔ key ∈ puts.map LogEntry.key := by
  induction puts using List.reverseRecOn with
  | nil => simp [replayed]
  | append_singleton puts e ih =>
      rw [replayed_append, Std.TreeMap.mem_insert, Std.LawfulEqOrd.compare_eq_iff_eq, ih,
        List.map_append, List.mem_append, List.map_singleton, List.mem_singleton, @eq_comm _ key,
        or_comm]

/-- There are as many records as keys of puts. -/
theorem size_replayed (puts : List LogEntry) :
    (replayed puts).size = (puts.map LogEntry.key).toFinset.card := by
  induction puts using List.reverseRecOn with
  | nil => rfl
  | append_singleton puts e ih =>
      have hkeys : ((puts ++ [e]).map LogEntry.key).toFinset =
          insert e.key (puts.map LogEntry.key).toFinset := by
        ext key
        simp
      rw [replayed_append, Std.TreeMap.size_insert, hkeys, Finset.card_insert_eq_ite, ih]
      simp only [Std.TreeMap.contains_iff_mem, mem_replayed, List.mem_toFinset]

/-! ## Serving requests -/

section

variable {φ : Type} [File φ] [LawfulFile φ] {s : Durable φ} {es : List LogEntry} {last : Mark}

/-- A store that is closed without a fault is opened with the entries that it kept. -/
theorem Keeps.reopen (h : s.Keeps es last false)
    (hdrains : ∀ session, s.session = some session → ∃ file, session.log.Drains s.file file)
    (settings : StoreSettings) (mark : String) :
    Comes (do modify close; openAs settings mark) s (.ok ()) fun s' =>
      ∃ m, s'.Keeps es m false := by
  obtain ⟨session, hopen, -, ⟨htracks⟩⟩ := h
  obtain ⟨file, hdrains⟩ := hdrains session hopen
  obtain ⟨⟨c, hfile, hc⟩, hcalm⟩ := htracks.drains_stores hdrains
  have hclose : s.close = { s with file, lock := s.lock.release, session := none } := by
    simp only [close, hopen, hdrains.close_eq]
  have hfound : Finds s.close.file c := by
    rw [hclose]
    exact LawfulFile.create_holds hfile rfl
  have hfree : s.close.lock.held = false := by
    rw [hclose]
    rfl
  obtain ⟨r, s', hrun, hcomes⟩ := openAs_comes hfree hfound hc settings mark
  have hclosed (hs : s.Calm) : s.close.Calm := by
    rw [hclose]
    exact ⟨hs.blocked, hs.lock, hcalm hs.file⟩
  refine ⟨r, s', hrun, hcomes.imp ?_ ?_⟩
  · rintro ⟨hr, ⟨⟨m, hkeeps, -⟩, -⟩, hs'⟩
    exact ⟨hr, ⟨m, hkeeps⟩, fun hs => hs' (hclosed hs)⟩
  · exact fun hio => ⟨fun hs => hio.1 (hclosed hs), hio.2⟩

/-- A request is answered, and the store keeps its puts. -/
theorem Keeps.serve (h : s.Keeps es last false) (request : Request)
    (hdrained : ∀ settings mark, request = .reopen settings mark → ∀ session,
      s.session = some session → ∃ file, session.log.Drains s.file file)
    (hlt : Header.width + (encodeAll (request.added es)).length < UInt64.size) :
    Comes request.serve s (request.answer es) fun s' =>
      ∃ m, s'.Keeps (request.added es) m false := by
  cases request with
  | put key value =>
      by_cases he : (⟨key, value⟩ : LogEntry).Fits
      · have hadded : (Request.put key value).added es = es ++ [⟨key, value⟩] := if_pos he
        rw [hadded] at hlt ⊢
        rw [Request.answer, if_pos he]
        refine ((h.put he).map fun _ => Reply.done).mono fun s' hkeeps => ?_
        obtain ⟨m, hm, -⟩ := hkeeps.1.settle fun _ => hlt
        exact ⟨m, hm⟩
      · have hadded : (Request.put key value).added es = es := if_neg he
        rw [hadded, Request.answer, if_neg he]
        exact (comes_of_eq (h.put_refused he) ⟨last, h⟩).map fun _ => Reply.done
  | get key =>
      have hget := (comes_of_eq (h.get_eq key) (P := fun s' => ∃ m, s'.Keeps es m false) ⟨last, h⟩)
      rw [entriesHold_eq_latest] at hget
      exact hget.map Reply.found
  | sync =>
      refine (h.sync.map fun _ => Reply.done).mono fun s' hkeeps => ?_
      obtain ⟨m, hm, -⟩ := hkeeps.1.settle fun _ => hlt
      exact ⟨m, hm⟩
  | size =>
      refine comes_of_eq ?_ ⟨last, h⟩
      obtain ⟨session, hopen, hrecords, -⟩ := h
      have hsize : s.size? = some (replayed es).size := by
        rw [size?, hopen, Option.map_some, hrecords]
      have hget : (MonadState.get : StoreM (Durable φ) (Durable φ)) s = (.ok s, s) := rfl
      rw [Request.serve, StoreM.bind_of_ok hget, hsize, Request.answer, ← size_replayed]
      rfl
  | reopen settings mark =>
      exact (h.reopen (hdrained settings mark rfl) settings mark).map fun _ => Reply.done

theorem exists_putsOf (es : List LogEntry) (requests : List Request) :
    ∃ more, putsOf es requests = es ++ more := by
  induction requests generalizing es with
  | nil => exact ⟨[], (List.append_nil es).symm⟩
  | cons request rest ih =>
      obtain ⟨more, hmore⟩ := ih (request.added es)
      have hputs : putsOf es (request :: rest) = request.added es ++ more := hmore
      cases request with
      | put key value =>
          rw [hputs, Request.added]
          split
          · exact ⟨_, List.append_assoc _ _ _⟩
          · exact ⟨more, rfl⟩
      | get | sync | size | reopen => exact ⟨more, hputs⟩

/-- An answer tells of no fault. -/
theorem Request.answer_ne_io (puts : List LogEntry) (request : Request) (cause : IoFault) :
    request.answer puts ≠ .error (.io cause) := by
  cases request with
  | put key value =>
      rw [answer]
      split <;> nofun
  | get | sync | size | reopen => nofun

/-- The entries after a request are not longer than those after all. -/
theorem added_lt {n : Nat} {request : Request} {rest : List Request}
    (hlt : n + (encodeAll (putsOf es (request :: rest))).length < UInt64.size) :
    n + (encodeAll (request.added es)).length < UInt64.size := by
  obtain ⟨more, hmore⟩ := exists_putsOf (request.added es) rest
  have hputs : putsOf es (request :: rest) = request.added es ++ more := hmore
  rw [hputs, LogEntry.encodeAll_append, List.length_append] at hlt
  omega

/-- Every request is answered if nothing has a fault. -/
theorem Keeps.serveEach {requests : List Request} (h : s.Keeps es last false)
    (hundisturbed : Undisturbed requests s)
    (hlt : Header.width + (encodeAll (putsOf es requests)).length < UInt64.size) :
    serveEach requests s = answers es requests := by
  induction requests generalizing s es last with
  | nil => rfl
  | cons request rest ih =>
      obtain ⟨hrequest, hrest⟩ := hundisturbed
      obtain ⟨hreply, ⟨m, hkeeps⟩, -⟩ :=
        (h.serve request hrequest.drained (added_lt hlt)).of_ne hrequest.reported
      rw [Durable.serveEach, answers, hreply, ih hkeeps hrest hlt]

/-- Nothing has a fault in a directory that is calm. -/
theorem Keeps.undisturbed {requests : List Request} (h : s.Keeps es last false) (hcalm : s.Calm)
    (hlt : Header.width + (encodeAll (putsOf es requests)).length < UInt64.size) :
    Undisturbed requests s := by
  induction requests generalizing s es last with
  | nil => trivial
  | cons request rest ih =>
      have hdrains : ∀ session, s.session = some session →
          ∃ file, session.log.Drains s.file file := by
        intro session hopen
        obtain ⟨_, hopen', -, ⟨htracks⟩⟩ := h
        rw [hopen] at hopen'
        cases hopen'
        obtain ⟨file, -, hdrains, -⟩ := htracks.drains_calm hcalm.file
        exact ⟨file, hdrains⟩
      obtain ⟨s', hrun, ⟨m, hkeeps⟩, hcalm'⟩ :=
        (h.serve request (fun _ _ _ => hdrains) (added_lt hlt)).of_calm hcalm
      rw [Undisturbed, hrun]
      refine ⟨⟨fun cause => ?_, fun _ _ _ => hdrains⟩, ih hkeeps hcalm' hlt⟩
      rw [hrun]
      exact request.answer_ne_io es cause

/-! ## From an empty directory -/

/-- Nobody has the store open, and its log is new. -/
structure New (s : Durable φ) : Prop where
  /-- It is closed. -/
  closed : s.session = none
  /-- Nobody else has the lock. -/
  free : s.lock.held = false
  /-- The log has no bytes. -/
  blank : Finds s.file []

omit [LawfulFile φ] in
theorem New.close_eq (h : s.New) : s.close = s := by
  rw [close, h.closed]

theorem New.open_comes (h : s.New) (settings : StoreSettings) (mark : String) :
    Comes (Request.reopen settings mark).serve s (.ok .done) fun s' =>
      ∃ m, s'.Keeps [] m false := by
  have hopened := openAs_comes (s := s) h.free h.blank .new settings mark
  have hserve : (do modify close; openAs settings mark : StoreM (Durable φ) Unit) s =
      openAs settings mark s := by
    show openAs settings mark s.close = _
    rw [h.close_eq]
  rw [Comes, ← hserve] at hopened
  refine (Comes.map hopened fun _ => Reply.done).mono fun s' hs' => ?_
  obtain ⟨⟨m, hkeeps, -⟩, -⟩ := hs'
  exact ⟨m, hkeeps⟩

/-- A store that is opened for the first time, and then closed and opened any number of
times, replies to every request as told by the puts so far, if nothing has a fault in
its directory. -/
theorem serves_latest (h : s.New) (settings : StoreSettings) (mark : String)
    (requests : List Request)
    (hundisturbed : Undisturbed (.reopen settings mark :: requests) s)
    (hlt : Header.width + (encodeAll (putsOf [] requests)).length < UInt64.size) :
    serveEach (.reopen settings mark :: requests) s = .ok .done :: answers [] requests := by
  obtain ⟨hfirst, hrest⟩ := hundisturbed
  obtain ⟨hreply, ⟨m, hkeeps⟩, -⟩ := (h.open_comes settings mark).of_ne hfirst.reported
  rw [serveEach, hreply, hkeeps.serveEach hrest hlt]

/-- A new store in a calm directory is not disturbed. -/
theorem New.undisturbed (h : s.New) (hcalm : s.Calm) (settings : StoreSettings) (mark : String)
    {requests : List Request}
    (hlt : Header.width + (encodeAll (putsOf [] requests)).length < UInt64.size) :
    Undisturbed (.reopen settings mark :: requests) s := by
  obtain ⟨s', hrun, ⟨m, hkeeps⟩, hcalm'⟩ := (h.open_comes settings mark).of_calm hcalm
  rw [Undisturbed, hrun]
  refine ⟨⟨?_, fun _ _ _ session hopen => ?_⟩, hkeeps.undisturbed hcalm' hlt⟩
  · rw [hrun]
    nofun
  · rw [h.closed] at hopen
    cases hopen

end

/-- A key is overwritten, and the store is opened again before its last put is synced.
The empty key has the empty value, and a put is made after that. -/
theorem serves_latest_disk :
    let s : Durable Disk := { file := {} }
    let requests : List Request := [
      .put [0x61] [0x31], .put [] [], .sync, .put [0x61] [0x32],
      .reopen { syncOnWrite := true } "b",
      .get [0x61], .get [], .get [0x62], .size, .put [0x62] [],
      .reopen { bufferSize := 0 } "c",
      .get [0x62], .get [0x61], .size]
    serveEach (.reopen {} "a" :: requests) s = [
      .ok .done, .ok .done, .ok .done, .ok .done, .ok .done, .ok .done,
      .ok (.found (some [0x32])), .ok (.found (some [])), .ok (.found none), .ok (.counted 2),
      .ok .done, .ok .done, .ok (.found (some [])), .ok (.found (some [0x32])),
      .ok (.counted 3)] := by
  intro s requests
  have hnew : s.New := ⟨rfl, rfl, rfl⟩
  have hcalm : s.Calm := ⟨rfl, ⟨rfl, nofun⟩, ⟨rfl, nofun⟩⟩
  have hlt : Header.width + (encodeAll (putsOf [] requests)).length < UInt64.size := by decide
  rw [serves_latest hnew {} "a" requests (hnew.undisturbed hcalm {} "a" hlt) hlt]
  decide

end Durable

end Leaderboard
