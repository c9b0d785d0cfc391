import Leaderboard.Proofs.Log.Faults

/-!
# Replays of any file

A replay of a file takes all the complete entries that there are behind the header, in
whatever bytes (`Log.Replays`).  After each of them its offset, count and checksum are
those of the entries so far (`Replay.Covers`), and they stay so when the replay ends.
It comes to a clean end if the entries are all that there is, and otherwise it meets
damage.

A log that is let go of is replayed with its entries, in whatever way they came to the
file (`Log.replays_of_drains`).  So a replay undoes what `Log.append` does with the
entries of a list, one after the other (`Log.replay_inverts_append`).
-/

namespace Leaderboard

open File (Holds Finds)
open LawfulFile (Calm)
open LogEntry (encodeAll digested Parsed Longest)

/-! ## Steps -/

namespace Replay

/-- The replay stands behind these entries, which are all that it has read. -/
structure Covers (r : Replay) (es : List LogEntry) : Prop where
  /-- The offset is that of the end of the entries in the file, -/
  offset_eq : r.offset = Header.width + (encodeAll es).length
  /-- the count is their number, -/
  count_eq : r.count = es.length
  /-- and the checksum is that of their keys and values, one after the other. -/
  checksum_eq : r.checksum.register = Checksum.of (digested es)

theorem covers_after (body rest : Bytes) (es : List LogEntry) :
    ((Log.replayOf body).after es rest).Covers es :=
  ⟨rfl, Nat.zero_add _, rfl⟩

/-- The step of an entry leads behind the entries up to it. -/
theorem getElem?_trail {r s : Replay} {es : List LogEntry} {tail : Bytes} {n : Nat} {e : LogEntry}
    (h : (r.trail es tail)[n]? = some (e, s)) : ∃ rest, s = r.after (es.take (n + 1)) rest := by
  induction es generalizing r n with
  | nil => cases h
  | cons d es ih =>
      rw [trail] at h
      cases n with
      | zero =>
          cases h
          exact ⟨_, advance_eq_after r _ _⟩
      | succ n =>
          obtain ⟨rest, rfl⟩ := ih h
          exact ⟨rest, advance_after r d (es.take (n + 1)) _ rest⟩

end Replay

namespace Log

/-! ## Any bytes -/

/-- How a file of these bytes is replayed, of which these are the entries. -/
structure Replays (content : Bytes) (es : List LogEntry) : Prop where
  /-- The entries are read, -/
  entries_eq : (Replay.ofSource (.bytes content)).run.entries = es
  /-- which are all that are complete behind the header. -/
  longest : Longest (content.drop Header.width) es
  /-- Each step leads behind the entries that were read so far, -/
  covers : ∀ (n : Nat) (e : LogEntry) (s : Replay),
    (Replay.ofSource (.bytes content)).run.steps[n]? = some (e, s) → s.Covers (es.take (n + 1))
  /-- and the replay ends behind the last one. -/
  last_covers :
    ((Replay.ofSource (.bytes content)).run.last (Replay.ofSource (.bytes content))).Covers es
  /-- The end is a clean one just if there is nothing else behind the header, -/
  stop_eq_none_iff : (Replay.ofSource (.bytes content)).run.stop = none ↔
    content.drop Header.width = encodeAll es
  /-- and any other end is damage. -/
  damaged : ∀ failure, (Replay.ofSource (.bytes content)).run.stop = some failure →
    ∃ damage, failure = .corruptedLog damage

theorem replays_of_parsed {content tail : Bytes} {es : List LogEntry}
    (hp : Parsed (content.drop Header.width) es tail) : Replays content es := by
  have hstart : Replay.ofSource (.bytes content) = replayOf (content.drop Header.width) := rfl
  obtain ⟨hsteps, hstop⟩ :=
    Replay.run_of_parsed (r := replayOf (content.drop Header.width)) rfl hp
  refine ⟨entries_run hp, hp.longest, ?_, ?_, ?_, ?_⟩
  · intro n e s hstep
    rw [hstart, hsteps] at hstep
    obtain ⟨rest, rfl⟩ := Replay.getElem?_trail hstep
    exact Replay.covers_after _ rest _
  · rw [hstart, last_run hp]
    exact Replay.covers_after _ tail es
  · have htail : content.drop Header.width = encodeAll es ↔ tail = [] := by
      rw [hp.bytes_eq, List.append_right_eq_self]
    rw [hstart, htail]
    cases hstop with
    | inl hend => exact iff_of_true hend.2 hend.1
    | inr hbroken =>
        obtain ⟨hne, damage, hdamage⟩ := hbroken
        exact iff_of_false (by simp [hdamage]) hne
  · intro failure hfailure
    rw [hstart] at hfailure
    cases hstop with
    | inl hend =>
        rw [hend.2] at hfailure
        cases hfailure
    | inr hbroken =>
        obtain ⟨-, damage, hdamage⟩ := hbroken
        rw [hdamage] at hfailure
        exact ⟨damage, (Option.some.inj hfailure).symm⟩

/-! ## Files of logs -/

/-- A file that stores entries has nothing else behind its header. -/
theorem Stores.parsed {c : Bytes} {es : List LogEntry} (h : Stores c es) :
    Parsed (c.drop Header.width) es [] := by
  cases h with
  | new =>
      have hnone : Parsed (encodeAll []) [] [] := LogEntry.parsed_encodeAll (by simp)
      exact hnone
  | @whole m header hwhole =>
      rw [hwhole.bytes_eq, List.drop_left' header.length_encode]
      exact LogEntry.parsed_encodeAll hwhole.fits

section

variable {φ : Type} [File φ] [LawfulFile φ]

/-- A log in use that is let go of is replayed to the end, with its entries. -/
theorem replays_of_drains {c : Bytes} {start : Mark} {log : Log} {f f' : φ} {es : List LogEntry}
    {ms : List Mark} (h : InUse c start log f es ms) (hdrains : log.Drains f f') :
    ∃ content, Holds f' content ∧ Replays content es ∧
      (Replay.ofSource (.bytes content)).run.stop = none := by
  obtain ⟨⟨content, hf', hstores⟩, -⟩ := h.tracks.drains_stores hdrains
  have hreplays := replays_of_parsed hstores.parsed
  refine ⟨content, hf', hreplays, hreplays.stop_eq_none_iff.mpr ?_⟩
  rw [hstores.parsed.bytes_eq, List.append_nil]

/-- A replay of a file gives the longest list of complete entries behind the header.  After each
of them, and at the end, its offset, count and checksum are those of the entries so far, and the
end is a clean one just if there is nothing else; else it is damage.  So the entries of a log
that is let go of are all replayed, whatever else was done with it, and in particular those of a
list that were added to a new log. -/
theorem replay_inverts_append :
    (∀ content, ∃ es, Replays content es) ∧
      (∀ (c : Bytes) (start : Mark) (log : Log) (f f' : φ) (es : List LogEntry) (ms : List Mark),
        InUse c start log f es ms → log.Drains f f' →
        ∃ content, Holds f' content ∧ Replays content es ∧
          (Replay.ofSource (.bytes content)).run.stop = none) ∧
      ∀ (f : φ) (capacity : Nat) (es : List LogEntry), Calm f → Finds f [] → (∀ e ∈ es, e.Fits) →
        ∃ (log log' : Log) (f₁ f₂ f₃ : φ) (content : Bytes),
          openFile capacity f = (.ok (log, { entries := [], truncated := 0 }), f₁) ∧
          (es.forM append : LogM φ Unit) log f₁ = ((.ok (), log'), f₂) ∧
          log'.Drains f₂ f₃ ∧ Holds f₃ content ∧
          (Replay.ofSource (.bytes content)).run.entries = es ∧
          (Replay.ofSource (.bytes content)).run.stop = none := by
  refine ⟨?_, ?_, ?_⟩
  · intro content
    obtain ⟨es, tail, hp⟩ := LogEntry.exists_parsed (content.drop Header.width)
    exact ⟨es, replays_of_parsed hp⟩
  · intro c start log f f' es ms huse hdrains
    exact replays_of_drains huse hdrains
  · intro f capacity es hcalm hf hes
    obtain ⟨log, log', f₁, f₂, hopen, hrun, huse, hcalm'⟩ :=
      InUse.exists_of_new hcalm hf capacity hes
    obtain ⟨f₃, -, hdrains, -⟩ := huse.tracks.drains_calm hcalm'
    obtain ⟨content, hcontent, hreplays, hstop⟩ := replays_of_drains huse hdrains
    exact ⟨log, log', f₁, f₂, f₃, content, hopen, hrun, hdrains, hcontent, hreplays.entries_eq,
      hstop⟩

/-- Two entries that a buffer of four bytes does not hold are replayed. -/
theorem replay_inverts_append_disk :
    let es : List LogEntry := [⟨[0x61], [0x31]⟩, ⟨[], [0x32]⟩]
    (∃ (log : Log) (d d' : Disk) (content : Bytes), InUse [] Mark.made log d es [] ∧
      log.Drains d d' ∧ Holds d' content ∧ Replays content es) ∧
    ∃ (log log' : Log) (d₁ d₂ d₃ : Disk) (content : Bytes),
      openFile 4 ({} : Disk) = (.ok (log, { entries := [], truncated := 0 }), d₁) ∧
      (es.forM append : LogM Disk Unit) log d₁ = ((.ok (), log'), d₂) ∧
      log'.Drains d₂ d₃ ∧ Holds d₃ content ∧
      (Replay.ofSource (.bytes content)).run.entries = es ∧
      (Replay.ofSource (.bytes content)).run.stop = none := by
  intro es
  have hcalm : Calm ({} : Disk) := ⟨rfl, nofun⟩
  have hfound : Finds ({} : Disk) [] := rfl
  have hfits : ∀ e ∈ es, e.Fits := by decide
  obtain ⟨-, hany, hnew⟩ := replay_inverts_append (φ := Disk)
  obtain ⟨-, log, -, d, -, -, huse, hcalm'⟩ := InUse.exists_of_new hcalm hfound 4 hfits
  obtain ⟨d', -, hdrains, -⟩ := huse.tracks.drains_calm hcalm'
  obtain ⟨content, hcontent, hreplays, -⟩ := hany _ _ log d d' es _ huse hdrains
  exact ⟨⟨log, d, d', content, huse, hdrains, hcontent, hreplays⟩,
    hnew {} 4 es hcalm hfound hfits⟩

end

end Log

end Leaderboard
