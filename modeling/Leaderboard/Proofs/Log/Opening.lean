import Leaderboard.Log.Basic
import Leaderboard.Proofs.File.Lawful
import Leaderboard.Proofs.Log.Entries

/-!
# Opening a log

Opening reads the header, replays the entries behind it, compares the two and
cuts off what follows the last complete entry.  `Header.Vouches` says of a header
and entries that they agree, in terms of the entries alone.

`Comes` is said of an action on a file of known bytes: it gives this reply and
leaves these bytes, unless an operation on the file fails, which none does on a
calm one.  Each step of opening comes to one thing, told by how the bytes are cut
into a header, entries and a remnant.  `Opening` lists what the whole comes to,
and `openFile_opening` says that it is one of these for every file.
-/

namespace Leaderboard

open File (Holds Finds)
open LawfulFile (Calm)
open LogEntry (encodeAll digested Parsed Longest)

/-! ## Headers -/

namespace Header

theorem readField_append {name : String} {w n : Nat} (h : n < Bytes.bound w) (rest : Bytes) :
    readField name w (Bytes.ofNatBE w n ++ rest) = .ok (n, rest) := by
  rw [readField, Bytes.split?_append (Bytes.length_ofNatBE w n)]
  simp only [Bytes.toNatBE_ofNatBE h]

theorem encode_eq (h : Header) :
    h.encode = Bytes.ofNatBE 4 h.magic.toNat ++ (Bytes.ofNatBE 2 h.version.toNat ++
      (Bytes.ofNatBE 8 h.entryCount.toNat ++ (Bytes.ofNatBE 8 h.checksum.toNat ++ []))) := rfl

theorem magic_lt (h : Header) : h.magic.toNat < Bytes.bound 4 := h.magic.toNat_lt

theorem version_lt (h : Header) : h.version.toNat < Bytes.bound 2 := h.version.toNat_lt

theorem entryCount_lt (h : Header) : h.entryCount.toNat < Bytes.bound 8 := h.entryCount.toNat_lt

theorem checksum_lt (h : Header) : h.checksum.toNat < Bytes.bound 8 := h.checksum.toNat_lt

theorem read_encode (h : Header) : read h.encode = .ok h := by
  rw [encode_eq, read, readField_append h.magic_lt]
  simp only [bind, Except.bind, readField_append h.version_lt, readField_append h.entryCount_lt,
    readField_append h.checksum_lt]
  simp [pure, Except.pure]

theorem decode_encode (h : Header) :
    decode h.encode = if h.Known then .ok h else .error .invalidHeader := by
  rw [decode, if_neg (by simp), read_encode]
  rfl

/-- A header is told by its bytes. -/
theorem encode_inj {h h' : Header} (heq : h.encode = h'.encode) : h = h' := by
  have hread := h.read_encode
  rw [heq, read_encode] at hread
  cases hread
  rfl

theorem encode_append_ne_nil (h : Header) (body : Bytes) : h.encode ++ body ≠ [] := by
  intro hnil
  have hlength := congrArg List.length hnil
  simp [width] at hlength

/-- Bytes of the right number are those of a header. -/
theorem exists_encode {bs : Bytes} (h : bs.length = width) :
    ∃ header : Header, header.encode = bs := by
  have hcut (n : Nat) (cs : Bytes) (hn : n ≤ cs.length) :
      ∃ digits rest, cs = digits ++ rest ∧ digits.length = n ∧ rest.length = cs.length - n :=
    ⟨cs.take n, cs.drop n, (List.take_append_drop n cs).symm, by simp [hn], by simp⟩
  rw [width] at h
  obtain ⟨magic, bs, rfl, hmagic, h₁⟩ := hcut 4 bs (by omega)
  obtain ⟨version, bs, rfl, hversion, h₂⟩ := hcut 2 bs (by omega)
  obtain ⟨count, bs, rfl, hcount, h₃⟩ := hcut 8 bs (by omega)
  obtain ⟨sum, bs, rfl, hsum, h₄⟩ := hcut 8 bs (by omega)
  have hnil : bs = [] := List.eq_nil_of_length_eq_zero (by omega)
  have hlt (digits : Bytes) {w : Nat} (hw : digits.length = w) :
      Bytes.toNatBE digits < Bytes.bound w := hw ▸ Bytes.toNatBE_lt digits
  have hback (digits : Bytes) {w : Nat} (hw : digits.length = w) :
      Bytes.ofNatBE w (Bytes.toNatBE digits) = digits := hw ▸ Bytes.ofNatBE_toNatBE digits
  refine ⟨⟨UInt32.ofNat (Bytes.toNatBE magic), UInt16.ofNat (Bytes.toNatBE version),
    UInt64.ofNat (Bytes.toNatBE count), UInt64.ofNat (Bytes.toNatBE sum)⟩, ?_⟩
  simp only [encode_eq, UInt32.toNat_ofNat_of_lt' (hlt magic hmagic),
    UInt16.toNat_ofNat_of_lt' (hlt version hversion), UInt64.toNat_ofNat_of_lt' (hlt count hcount),
    UInt64.toNat_ofNat_of_lt' (hlt sum hsum), hback magic hmagic, hback version hversion,
    hback count hcount, hback sum hsum, hnil]

theorem known_iff {h : Header} : h.Known ↔ h.magic = mark ∧ h.version = 1 := by
  have hversion : h.version ≠ 0 ∧ h.version ≤ newest ↔ h.version = 1 := by
    rw [newest, ne_eq, ← UInt16.toNat_inj, ← UInt16.toNat_inj, UInt16.le_iff_toNat_le]
    simp only [UInt16.reduceToNat]
    omega
  rw [Known, hversion]

/-- Bytes begin with one header only. -/
theorem eq_of_front {h h' : Header} {body : Bytes} (hfront : h'.encode <+: h.encode ++ body) :
    h' = h := by
  have hencode := List.prefix_of_prefix_length_le hfront (List.prefix_append h.encode body)
    (by simp)
  exact encode_inj (hencode.eq_of_length (by simp))

/-- A header speaks for the entries behind it: the entries that it counts are there,
and it has their checksum. -/
structure Vouches (h : Header) (es : List LogEntry) : Prop where
  /-- The entries that were synced are there. -/
  count_le : h.entryCount.toNat ≤ es.length
  /-- They have the checksum that was synced, if there are any. -/
  checksum_eq : 0 < h.entryCount.toNat →
    Checksum.of (digested (es.take h.entryCount.toNat)) = h.checksum

end Header

namespace Log

variable {φ : Type} [File φ] [LawfulFile φ] {α β : Type}

/-! ## Actions on a file of known bytes -/

/-- On a file of the bytes `c` the action gives this reply and leaves the bytes
`c'`, unless an operation fails. -/
def Comes (x : OpenM φ α) (c : Bytes) (reply : Except Failure α) (c' : Bytes) : Prop :=
  ∀ ⦃f : φ⦄, Holds f c → ∃ r f', x f = (r, f') ∧
    ((r = reply ∧ Holds f' c' ∧ (Calm f → Calm f')) ∨
      (¬ Calm f ∧ ∃ cause, r = .error (.io cause)))

theorem comes_pure (a : α) (c : Bytes) : Comes (pure a : OpenM φ α) c (.ok a) c :=
  fun f h => ⟨_, f, rfl, .inl ⟨rfl, h, id⟩⟩

theorem comes_throw (failure : Failure) (c : Bytes) :
    Comes (throw failure : OpenM φ α) c (.error failure) c :=
  fun f h => ⟨_, f, rfl, .inl ⟨rfl, h, id⟩⟩

theorem Comes.bind {x : OpenM φ α} {k : α → OpenM φ β} {c c' c'' : Bytes} {a : α}
    {reply : Except Failure β} (hx : Comes x c (.ok a) c') (hk : Comes (k a) c' reply c'') :
    Comes (x >>= k) c reply c'' := by
  intro f h
  obtain ⟨r, g, hrun, hcome⟩ := hx h
  have hbind : (x >>= k) f = ExceptT.bindCont k (x f).1 (x f).2 := rfl
  rw [hbind, hrun]
  cases hcome with
  | inl hok =>
      obtain ⟨rfl, hg, hcalm⟩ := hok
      obtain ⟨r', g', hrun', hcome'⟩ := hk hg
      refine ⟨r', g', hrun', ?_⟩
      cases hcome' with
      | inl hok' => exact .inl ⟨hok'.1, hok'.2.1, fun hf => hok'.2.2 (hcalm hf)⟩
      | inr hio => exact .inr ⟨fun hf => hio.1 (hcalm hf), hio.2⟩
  | inr hio =>
      obtain ⟨hf, cause, rfl⟩ := hio
      exact ⟨_, g, rfl, .inr ⟨hf, cause, rfl⟩⟩

theorem Comes.bind_error {x : OpenM φ α} {c c' : Bytes} {failure : Failure}
    (hx : Comes x c (.error failure) c') (k : α → OpenM φ β) :
    Comes (x >>= k) c (.error failure) c' := by
  intro f h
  obtain ⟨r, g, hrun, hcome⟩ := hx h
  have hbind : (x >>= k) f = ExceptT.bindCont k (x f).1 (x f).2 := rfl
  rw [hbind, hrun]
  cases hcome with
  | inl hok =>
      obtain ⟨rfl, hg, hcalm⟩ := hok
      exact ⟨_, g, rfl, .inl ⟨rfl, hg, hcalm⟩⟩
  | inr hio =>
      obtain ⟨hf, cause, rfl⟩ := hio
      exact ⟨_, g, rfl, .inr ⟨hf, cause, rfl⟩⟩

/-- A file operation comes out as it does when it succeeds. -/
theorem comes_onFile {x : FileM φ α} {a : α} {c c' : Bytes}
    (hok : ∀ {f f' : φ} {b : α}, Holds f c → x f = (.ok b, f') → b = a ∧ Holds f' c')
    (hcalm : ∀ {f : φ}, Calm f → Holds f c → ∃ f', x f = (.ok a, f') ∧ Calm f') :
    Comes (onFile x) c (.ok a) c' := by
  intro f h
  have honFile : (onFile x) f = ((x f).1.mapError Failure.io, (x f).2) := rfl
  rw [honFile]
  refine ⟨_, _, rfl, ?_⟩
  cases hrun : x f with
  | mk r g =>
      cases r with
      | ok b =>
          obtain ⟨rfl, hg⟩ := hok h hrun
          refine .inl ⟨rfl, hg, fun hf => ?_⟩
          obtain ⟨g', hrun', hg'⟩ := hcalm hf h
          rw [hrun] at hrun'
          cases hrun'
          exact hg'
      | error cause =>
          refine .inr ⟨fun hf => ?_, cause, rfl⟩
          obtain ⟨g', hrun', -⟩ := hcalm hf h
          rw [hrun] at hrun'
          cases hrun'

theorem comes_contents (c : Bytes) : Comes (onFile File.contents : OpenM φ Bytes) c (.ok c) c := by
  refine comes_onFile ?_ ?_
  · intro f f' b h heq
    rw [h.contents_eq] at heq
    cases heq
    exact ⟨rfl, h⟩
  · intro f hf h
    exact ⟨f, h.contents_eq, hf⟩

theorem comes_overwrite (bs c : Bytes) :
    Comes (onFile (File.overwrite bs) : OpenM φ Unit) c (.ok ()) (bs ++ c.drop bs.length) := by
  refine comes_onFile ?_ ?_
  · intro f f' b h heq
    obtain ⟨n, -, hholds, hn⟩ := LawfulFile.overwrite_holds h heq
    rw [hn rfl, List.take_length] at hholds
    exact ⟨rfl, hholds⟩
  · intro f hf h
    exact LawfulFile.overwrite_calm bs hf h

theorem comes_sync (c : Bytes) : Comes (onFile File.sync : OpenM φ Unit) c (.ok ()) c := by
  refine comes_onFile ?_ ?_
  · intro f f' b h heq
    exact ⟨rfl, LawfulFile.sync_holds h heq⟩
  · intro f hf h
    exact LawfulFile.sync_calm hf h

theorem comes_resize {n : Nat} {c : Bytes} (hn : n ≤ c.length) :
    Comes (onFile (File.resize n) : OpenM φ Unit) c (.ok ()) (c.take n) := by
  refine comes_onFile ?_ ?_
  · intro f f' b h heq
    exact ⟨rfl, LawfulFile.resize_holds h hn heq⟩
  · intro f hf h
    exact LawfulFile.resize_calm n hf h

/-! ## The header -/

theorem readHeader_nil : Comes (readHeader : OpenM φ Header) [] (.ok {}) ({} : Header).encode := by
  have hwrite := comes_overwrite (φ := φ) ({} : Header).encode []
  rw [List.drop_nil, List.append_nil] at hwrite
  exact (comes_contents []).bind (hwrite.bind ((comes_sync _).bind (comes_pure _ _)))

theorem readHeader_short {c : Bytes} (hc : c ≠ []) (hlength : c.length < Header.width) :
    Comes (readHeader : OpenM φ Header) c (.error (.decode "header" .shortRead)) c := by
  refine (comes_contents c).bind ?_
  have hempty : c.isEmpty = false := by simpa using hc
  have hsplit : Bytes.split? Header.width c = none := by
    rw [Bytes.split?, if_neg (Nat.not_le.mpr hlength)]
  simp only [hempty, hsplit]
  exact comes_throw _ c

theorem readHeader_encode (h : Header) (rest : Bytes) :
    Comes (readHeader : OpenM φ Header) (h.encode ++ rest)
      (if h.Known then .ok h else .error .invalidHeader) (h.encode ++ rest) := by
  refine (comes_contents _).bind ?_
  have hempty : (h.encode ++ rest).isEmpty = false :=
    List.isEmpty_eq_false_iff.mpr (h.encode_append_ne_nil rest)
  simp only [hempty, Bytes.split?_append h.length_encode, h.decode_encode]
  intro f hf
  exact ⟨_, f, rfl, .inl ⟨rfl, hf, id⟩⟩

/-! ## The entries -/

/-- The replay of a file whose bytes behind the header are these. -/
def replayOf (body : Bytes) : Replay := { rest := .bytes body }

theorem ofSource_eq {front : Bytes} (hfront : front.length = Header.width) (body : Bytes) :
    Replay.ofSource (.bytes (front ++ body)) = replayOf body := by
  simp only [Replay.ofSource, replayOf, List.drop_left' hfront]

/-- The step that the header is compared with. -/
theorem find?_run {body tail : Bytes} {es : List LogEntry} (hp : Parsed body es tail) (n : Nat) :
    ((replayOf body).run.steps.map Prod.snd).find? (·.count == n) =
      if 0 < n ∧ n ≤ es.length then
        some ((replayOf body).after (es.take n) (encodeAll (es.drop n) ++ tail))
      else none := by
  obtain ⟨hsteps, -⟩ := Replay.run_of_parsed (r := replayOf body) rfl hp
  have hcount : (replayOf body).count + n = n := Nat.zero_add n
  rw [hsteps]
  split
  · rename_i hn
    have hfind := Replay.find?_trail (replayOf body) tail hn.1 hn.2
    rwa [hcount] at hfind
  · have hfind := Replay.find?_trail_eq_none (replayOf body) es tail (n := n) (by omega)
    rwa [hcount] at hfind

/-- Entries that the header speaks for are not damaged. -/
theorem damage?_eq_none {h : Header} {body tail : Bytes} {es : List LogEntry}
    (hp : Parsed body es tail) (hv : h.Vouches es) : damage? h (replayOf body).run = none := by
  simp only [damage?, find?_run hp]
  by_cases hzero : h.entryCount.toNat = 0
  · simp [hzero]
  · have hpos : 0 < h.entryCount.toNat := Nat.pos_of_ne_zero hzero
    rw [if_pos ⟨hpos, hv.count_le⟩]
    exact if_pos (hv.checksum_eq hpos)

/-- Entries that it does not speak for are damaged. -/
theorem damage?_eq_some {h : Header} {body tail : Bytes} {es : List LogEntry}
    (hp : Parsed body es tail) (hv : ¬ h.Vouches es) :
    ∃ damage, damage? h (replayOf body).run = some (.corruptedLog damage) := by
  simp only [damage?, find?_run hp]
  by_cases hpos : 0 < h.entryCount.toNat
  · by_cases hle : h.entryCount.toNat ≤ es.length
    · rw [if_pos ⟨hpos, hle⟩]
      have hsum : ((replayOf body).after (es.take h.entryCount.toNat)
          (encodeAll (es.drop h.entryCount.toNat) ++ tail)).checksum.register ≠ h.checksum :=
        fun heq => hv ⟨hle, fun _ => heq⟩
      exact ⟨_, if_neg hsum⟩
    · rw [if_neg (fun hn => hle hn.2)]
      simp only [Nat.ne_of_gt hpos, if_false]
      obtain ⟨-, hstop⟩ := Replay.run_of_parsed (r := replayOf body) rfl hp
      cases hstop with
      | inl hend =>
          rw [hend.2]
          exact ⟨_, rfl⟩
      | inr hbroken =>
          obtain ⟨-, damage, hdamage⟩ := hbroken
          rw [hdamage]
          exact ⟨damage, rfl⟩
  · exact absurd ⟨by omega, fun hn => absurd hn hpos⟩ hv

theorem last_run {body tail : Bytes} {es : List LogEntry} (hp : Parsed body es tail) :
    (replayOf body).run.last (replayOf body) = (replayOf body).after es tail := by
  obtain ⟨hsteps, -⟩ := Replay.run_of_parsed (r := replayOf body) rfl hp
  rw [Replay.Outcome.last, hsteps]
  refine Replay.getLast?_trail ?_
  rw [← hp.bytes_eq]
  rfl

theorem entries_run {body tail : Bytes} {es : List LogEntry} (hp : Parsed body es tail) :
    (replayOf body).run.entries = es := by
  obtain ⟨hsteps, -⟩ := Replay.run_of_parsed (r := replayOf body) rfl hp
  rw [Replay.Outcome.entries, hsteps, Replay.map_fst_trail]

theorem recover_of_vouches {h : Header} {front body tail : Bytes} {es : List LogEntry}
    (hfront : front.length = Header.width) (hp : Parsed body es tail) (hv : h.Vouches es) :
    Comes (recover h : OpenM φ (Replay × Recovery)) (front ++ body)
      (.ok ((replayOf body).after es tail, { entries := es, truncated := tail.length }))
      (front ++ encodeAll es) := by
  refine (comes_contents _).bind ?_
  simp only [ofSource_eq hfront, damage?_eq_none hp hv, last_run hp, entries_run hp]
  obtain ⟨-, hstop⟩ := Replay.run_of_parsed (r := replayOf body) rfl hp
  cases hstop with
  | inl hend =>
      obtain ⟨rfl, hnone⟩ := hend
      have hbody : body = encodeAll es := by rw [hp.bytes_eq, List.append_nil]
      rw [if_neg (by simp [hnone]), hbody]
      exact comes_pure _ _
  | inr hbroken =>
      obtain ⟨-, damage, hdamage⟩ := hbroken
      have hbytes : front ++ body = front ++ encodeAll es ++ tail := by
        rw [List.append_assoc, ← hp.bytes_eq]
      have hoffset : ((replayOf body).after es tail).offset = (front ++ encodeAll es).length := by
        rw [List.length_append, hfront]
        rfl
      rw [if_pos (by simp [hdamage]), hoffset, hbytes]
      have hcut := comes_resize (φ := φ) (c := front ++ encodeAll es ++ tail)
        (n := (front ++ encodeAll es).length) (by simp)
      rw [List.take_left] at hcut
      exact hcut.bind ((comes_sync _).bind (comes_pure _ _))

theorem recover_of_not_vouches {h : Header} {front body tail : Bytes} {es : List LogEntry}
    (hfront : front.length = Header.width) (hp : Parsed body es tail) (hv : ¬ h.Vouches es) :
    ∃ damage, Comes (recover h : OpenM φ (Replay × Recovery)) (front ++ body)
      (.error (.corruptedLog damage)) (front ++ body) := by
  obtain ⟨damage, hdamage⟩ := damage?_eq_some hp hv
  refine ⟨damage, (comes_contents _).bind ?_⟩
  simp only [ofSource_eq hfront, hdamage]
  exact comes_throw _ _

/-! ## The whole -/

/-- The log that is opened with these entries. -/
def opened (capacity : Nat) (es : List LogEntry) : Log where
  buffer := some { capacity }
  entryCount := es.length
  checksum := Checksum.initial.write (digested es)
  written := Header.width + (encodeAll es).length
  durable := Header.width + (encodeAll es).length

/-- What opening a file of some bytes comes to: the reply and the bytes that are
left. -/
inductive Opening (capacity : Nat) :
    Bytes → Except Failure (Log × Recovery) → Bytes → Prop where
  /-- An empty file is given a header. -/
  | blank : Opening capacity []
      (.ok (opened capacity [], { entries := [], truncated := 0 })) ({} : Header).encode
  /-- A file is too short for a header. -/
  | short {c : Bytes} : c ≠ [] → c.length < Header.width →
      Opening capacity c (.error (.decode "header" .shortRead)) c
  /-- The header is not of this format. -/
  | foreign {h : Header} {body : Bytes} : ¬ h.Known →
      Opening capacity (h.encode ++ body) (.error .invalidHeader) (h.encode ++ body)
  /-- The header does not speak for the entries. -/
  | damaged {h : Header} {body tail : Bytes} {es : List LogEntry} (damage : LogDamage) :
      h.Known → Parsed body es tail → ¬ h.Vouches es →
      Opening capacity (h.encode ++ body) (.error (.corruptedLog damage)) (h.encode ++ body)
  /-- The entries are recovered, and the remnant behind them is cut off. -/
  | sound {h : Header} {body tail : Bytes} {es : List LogEntry} :
      h.Known → Parsed body es tail → h.Vouches es →
      Opening capacity (h.encode ++ body)
        (.ok (opened capacity es, { entries := es, truncated := tail.length }))
        (h.encode ++ encodeAll es)

/-- Opening once the file is there. -/
def load (capacity : Nat) : OpenM φ (Log × Recovery) := do
  let header ← readHeader
  let (last, recovery) ← recover header
  let length := (← onFile File.contents).length
  pure ({
    buffer := some { capacity }
    entryCount := last.count
    checksum := last.checksum
    written := length
    durable := length }, recovery)

theorem load_of_vouches {capacity : Nat} {h : Header} {c body tail : Bytes}
    {es : List LogEntry}
    (hheader : Comes (readHeader : OpenM φ Header) c (.ok h) (h.encode ++ body))
    (hp : Parsed body es tail) (hv : h.Vouches es) :
    Comes (load capacity : OpenM φ (Log × Recovery)) c
      (.ok (opened capacity es, { entries := es, truncated := tail.length }))
      (h.encode ++ encodeAll es) := by
  refine hheader.bind ((recover_of_vouches h.length_encode hp hv).bind
    ((comes_contents _).bind ?_))
  have hcount : ((replayOf body).after es tail).count = es.length := Nat.zero_add _
  have hlength : (h.encode ++ encodeAll es).length = Header.width + (encodeAll es).length := by
    rw [List.length_append, h.length_encode]
  simp only [hcount, hlength]
  exact comes_pure _ _

theorem vouches_default (es : List LogEntry) : ({} : Header).Vouches es :=
  ⟨Nat.zero_le _, fun h => absurd h (Nat.lt_irrefl 0)⟩

/-- An empty file is opened as that of a new log. -/
theorem load_nil (capacity : Nat) :
    Comes (load capacity : OpenM φ (Log × Recovery)) []
      (.ok (opened capacity [], { entries := [], truncated := 0 })) ({} : Header).encode := by
  have hnone : Parsed (encodeAll []) [] [] := LogEntry.parsed_encodeAll (by simp)
  exact load_of_vouches readHeader_nil hnone (vouches_default [])

theorem load_of_not_vouches {h : Header} {c body tail : Bytes}
    {es : List LogEntry}
    (hheader : Comes (readHeader : OpenM φ Header) c (.ok h) (h.encode ++ body))
    (hp : Parsed body es tail) (hv : ¬ h.Vouches es) :
    ∃ damage, ∀ capacity, Comes (load capacity : OpenM φ (Log × Recovery)) c
      (.error (.corruptedLog damage)) (h.encode ++ body) := by
  obtain ⟨damage, hrecover⟩ := recover_of_not_vouches (φ := φ) h.length_encode hp hv
  exact ⟨damage, fun _ => hheader.bind (hrecover.bind_error _)⟩

/-- A header with the number and the checksum of entries speaks for them. -/
theorem vouches_header {log : Log} {es : List LogEntry} (hcount : log.entryCount = es.length)
    (hsum : log.checksum = Checksum.initial.write (digested es))
    (hlt : es.length < UInt64.size) : log.header.Vouches es := by
  have hnumber : log.header.entryCount.toNat = es.length := by
    rw [header, hcount]
    exact UInt64.toNat_ofNat_of_lt' hlt
  refine ⟨Nat.le_of_eq hnumber, fun _ => ?_⟩
  rw [hnumber, List.take_length, header, hsum]
  rfl

theorem known_header (log : Log) : log.header.Known := Header.known_iff.mpr ⟨rfl, rfl⟩

/-- Opening a file that is there comes to one of the five. -/
theorem load_opening (capacity : Nat) (c : Bytes) :
    ∃ reply c', Opening capacity c reply c' ∧
      Comes (load capacity : OpenM φ (Log × Recovery)) c reply c' := by
  by_cases hnil : c = []
  · subst hnil
    exact ⟨_, _, .blank, load_nil capacity⟩
  · by_cases hlength : c.length < Header.width
    · exact ⟨_, c, .short hnil hlength, (readHeader_short hnil hlength).bind_error _⟩
    · obtain ⟨h, hh⟩ := Header.exists_encode
        (List.length_take_of_le (Nat.le_of_not_lt hlength))
      obtain ⟨body, rfl⟩ : ∃ body, c = h.encode ++ body :=
        ⟨c.drop Header.width, by rw [hh, List.take_append_drop]⟩
      have hheader := readHeader_encode (φ := φ) h body
      by_cases hknown : h.Known
      · rw [if_pos hknown] at hheader
        obtain ⟨es, tail, hp⟩ := LogEntry.exists_parsed body
        by_cases hv : h.Vouches es
        · exact ⟨_, _, .sound hknown hp hv, load_of_vouches hheader hp hv⟩
        · obtain ⟨damage, hload⟩ := load_of_not_vouches hheader hp hv
          exact ⟨_, _, .damaged damage hknown hp hv, hload capacity⟩
      · rw [if_neg hknown] at hheader
        exact ⟨_, _, .foreign hknown, hheader.bind_error _⟩

/-- Opening goes as it does once the file is there, unless an operation fails. -/
theorem openFile_comes {f : φ} {c c' : Bytes} {reply : Except Failure (Log × Recovery)}
    {capacity : Nat} (h : Finds f c)
    (hload : Comes (load capacity : OpenM φ (Log × Recovery)) c reply c') :
    ∃ r f', openFile capacity f = (r, f') ∧
      ((r = reply ∧ Holds f' c' ∧ (Calm f → Calm f')) ∨
        (¬ Calm f ∧ ∃ cause, r = .error (.io cause))) := by
  have hopen : openFile capacity f =
      ExceptT.bindCont (fun _ => load capacity) ((onFile File.create : OpenM φ Unit) f).1
        ((onFile File.create : OpenM φ Unit) f).2 := rfl
  have hcreate : (onFile File.create : OpenM φ Unit) f =
      (((File.create : FileM φ Unit) f).1.mapError Failure.io,
        ((File.create : FileM φ Unit) f).2) := rfl
  rw [hopen, hcreate]
  cases hrun : (File.create : FileM φ Unit) f with
  | mk r g =>
      have hg : Holds g c := by
        rw [Finds, hrun] at h
        exact h
      have hcalm (hf : Calm f) : r = .ok () ∧ Calm g := by
        obtain ⟨g', hrun', hg'⟩ := LawfulFile.create_calm hf
        rw [hrun] at hrun'
        cases hrun'
        exact ⟨rfl, hg'⟩
      cases r with
      | error cause =>
          refine ⟨_, g, rfl, .inr ⟨fun hf => ?_, cause, rfl⟩⟩
          cases (hcalm hf).1
      | ok a =>
          obtain ⟨r, g', hrun', hcome⟩ := hload hg
          refine ⟨r, g', hrun', ?_⟩
          cases hcome with
          | inl hok => exact .inl ⟨hok.1, hok.2.1, fun hf => hok.2.2 (hcalm hf).2⟩
          | inr hio => exact .inr ⟨fun hf => hio.1 (hcalm hf).2, hio.2⟩

/-- Opening comes to one of the five, unless an operation on the file fails. -/
theorem openFile_opening {f : φ} {c : Bytes} (h : Finds f c) (capacity : Nat) :
    ∃ reply f', openFile capacity f = (reply, f') ∧
      ((∃ c', Opening capacity c reply c' ∧ Holds f' c' ∧ (Calm f → Calm f')) ∨
        (¬ Calm f ∧ ∃ cause, reply = .error (.io cause))) := by
  obtain ⟨reply, c', hopening, hload⟩ := load_opening (φ := φ) capacity c
  obtain ⟨r, f', hrun, hcome⟩ := openFile_comes h hload
  refine ⟨r, f', hrun, ?_⟩
  cases hcome with
  | inl hok =>
      obtain ⟨rfl, hf', hcalm⟩ := hok
      exact .inl ⟨c', hopening, hf', hcalm⟩
  | inr hio => exact .inr hio

/-- A calm file is opened as it is once it is there. -/
theorem openFile_of_calm {f : φ} {c c' : Bytes} {reply : Except Failure (Log × Recovery)}
    {capacity : Nat} (hf : Calm f) (h : Finds f c)
    (hload : Comes (load capacity : OpenM φ (Log × Recovery)) c reply c') :
    ∃ f', openFile capacity f = (reply, f') ∧ Holds f' c' := by
  obtain ⟨r, f', hrun, hcome⟩ := openFile_comes h hload
  cases hcome with
  | inl hok =>
      obtain ⟨rfl, hf', -⟩ := hok
      exact ⟨f', hrun, hf'⟩
  | inr hio => exact absurd hf hio.1

/-- A calm file whose header speaks for its entries is opened, and the remnant
behind them is cut off. -/
theorem openFile_of_vouches {f : φ} {h : Header} {body tail : Bytes} {es : List LogEntry}
    (hcalm : Calm f) (hf : Finds f (h.encode ++ body)) (hknown : h.Known)
    (hp : Parsed body es tail) (hv : h.Vouches es) (capacity : Nat) :
    ∃ f', openFile capacity f =
        (.ok (opened capacity es, { entries := es, truncated := tail.length }), f') ∧
      Holds f' (h.encode ++ encodeAll es) := by
  have hheader := readHeader_encode (φ := φ) h body
  rw [if_pos hknown] at hheader
  exact openFile_of_calm hcalm hf (load_of_vouches hheader hp hv)

/-- A calm file whose header does not speak for its entries is refused as it is. -/
theorem openFile_of_not_vouches {f : φ} {h : Header} {body tail : Bytes} {es : List LogEntry}
    (hcalm : Calm f) (hf : Finds f (h.encode ++ body)) (hknown : h.Known)
    (hp : Parsed body es tail) (hv : ¬ h.Vouches es) (capacity : Nat) :
    ∃ damage f', openFile capacity f = (.error (.corruptedLog damage), f') ∧
      Holds f' (h.encode ++ body) := by
  have hheader := readHeader_encode (φ := φ) h body
  rw [if_pos hknown] at hheader
  obtain ⟨damage, hload⟩ := load_of_not_vouches hheader hp hv
  obtain ⟨f', hrun, hf'⟩ := openFile_of_calm hcalm hf (hload capacity)
  exact ⟨damage, f', hrun, hf'⟩

end Log

end Leaderboard
