import Leaderboard.Proofs.Log.Opening

/-!
# Which files are opened

A log file is refused for three reasons only: it is too short for a header, its
header is not of this format, or the header counts entries that are not there or
have another checksum.  `Refused` says so of the bytes of a file, without
reference to how they are read, and `openFile_accepts` that a file is refused
exactly for these reasons and is then left as it is.  Any other file is opened
with all its complete entries and cut behind the last of them, so that opening
it again finds the same entries and cuts nothing.
-/

namespace Leaderboard

open File (Holds Finds)
open LawfulFile (Calm)
open LogEntry (encodeAll digested Parsed Longest)

/-! ## Reasons -/

/-- Why a file is refused of which these are all the complete entries. -/
inductive Refused (content : Bytes) (es : List LogEntry) : Failure → Prop where
  /-- The file is too short for a header. -/
  | short : content ≠ [] → content.length < Header.width →
      Refused content es (.decode "header" .shortRead)
  /-- The header has another mark or another version. -/
  | foreign {h : Header} : h.encode <+: content → h.magic ≠ Header.mark ∨ h.version ≠ 1 →
      Refused content es .invalidHeader
  /-- The header counts more entries than there are. -/
  | missing {h : Header} (damage : LogDamage) : h.encode <+: content →
      h.magic = Header.mark → h.version = 1 → es.length < h.entryCount.toNat →
      Refused content es (.corruptedLog damage)
  /-- The entries that the header counts have another checksum. -/
  | mismatch {h : Header} (damage : LogDamage) : h.encode <+: content →
      h.magic = Header.mark → h.version = 1 → 0 < h.entryCount.toNat →
      h.entryCount.toNat ≤ es.length →
      Checksum.of (digested (es.take h.entryCount.toNat)) ≠ h.checksum →
      Refused content es (.corruptedLog damage)

namespace Refused

variable {es : List LogEntry} {failure : Failure} {h : Header} {body : Bytes}

theorem not_nil : ¬ Refused [] es failure := by
  intro hrefused
  have hfront (h : Header) (hpre : h.encode <+: []) : False := by
    have hlength := hpre.length_le
    rw [h.length_encode] at hlength
    cases hlength
  cases hrefused with
  | short hne _ => exact hne rfl
  | foreign hpre _ => exact hfront _ hpre
  | missing _ hpre _ _ _ => exact hfront _ hpre
  | mismatch _ hpre _ _ _ _ _ => exact hfront _ hpre

/-- A file with a header that speaks for the entries is not refused. -/
theorem not_of_vouches (hknown : h.Known) (hv : h.Vouches es) :
    ¬ Refused (h.encode ++ body) es failure := by
  intro hrefused
  cases hrefused with
  | short _ hlength =>
      rw [List.length_append, h.length_encode] at hlength
      omega
  | foreign hpre hforeign =>
      obtain rfl := Header.eq_of_front hpre
      obtain ⟨hmagic, hversion⟩ := Header.known_iff.mp hknown
      cases hforeign with
      | inl hmark => exact hmark hmagic
      | inr hone => exact hone hversion
  | missing _ hpre _ _ hcount =>
      obtain rfl := Header.eq_of_front hpre
      exact absurd hv.count_le (Nat.not_le.mpr hcount)
  | mismatch _ hpre _ _ hpos _ hsum =>
      obtain rfl := Header.eq_of_front hpre
      exact hsum (hv.checksum_eq hpos)

theorem of_not_known (hknown : ¬ h.Known) : Refused (h.encode ++ body) es .invalidHeader := by
  refine .foreign (List.prefix_append _ _) ?_
  rw [Header.known_iff] at hknown
  exact Decidable.not_and_iff_not_or_not.mp hknown

theorem of_not_vouches (damage : LogDamage) (hknown : h.Known) (hv : ¬ h.Vouches es) :
    Refused (h.encode ++ body) es (.corruptedLog damage) := by
  obtain ⟨hmagic, hversion⟩ := Header.known_iff.mp hknown
  have hpre : h.encode <+: h.encode ++ body := List.prefix_append _ _
  by_cases hcount : h.entryCount.toNat ≤ es.length
  · have hwrong : ¬ (0 < h.entryCount.toNat →
        Checksum.of (digested (es.take h.entryCount.toNat)) = h.checksum) :=
      fun hsum => hv ⟨hcount, hsum⟩
    rw [Classical.not_imp] at hwrong
    exact .mismatch damage hpre hmagic hversion hwrong.1 hcount hwrong.2
  · exact .missing damage hpre hmagic hversion (Nat.not_le.mp hcount)

end Refused

/-! ## Opening -/

namespace Log

/-- What opening a file of the bytes `content` comes to, of which `es` are all the
complete entries: the reply and the bytes that are left. -/
structure Verdict (φ : Type) [File φ] [LawfulFile φ] (content : Bytes) (es : List LogEntry)
    (reply : Except Failure (Log × Recovery)) (content' : Bytes) : Prop where
  /-- An empty file is given a header and has no entries. -/
  blank : content = [] → content' = ({} : Header).encode ∧
    ∃ log, reply = .ok (log, { entries := [], truncated := 0 })
  /-- A file is refused for the reasons there are, -/
  refused_iff : (∃ failure, reply = .error failure) ↔ ∃ failure, Refused content es failure
  /-- for the one that is told, and as it is. -/
  refused : ∀ failure, reply = .error failure → Refused content es failure ∧ content' = content
  /-- If it is not refused, it is cut behind the entries. -/
  opened : content ≠ [] → ∀ log recovery, reply = .ok (log, recovery) →
    recovery = { entries := es
                 truncated := content.length - (Header.width + (encodeAll es).length) } ∧
      content' = content.take (Header.width + (encodeAll es).length)
  /-- What is left is opened with the same entries and not cut. -/
  again : ∀ log recovery, reply = .ok (log, recovery) →
    ∀ (capacity : Nat) {f : φ}, Calm f → Finds f content' →
      ∃ log' f', openFile capacity f = (.ok (log', { entries := es, truncated := 0 }), f') ∧
        Holds f' content'

section

variable {φ : Type} [File φ] [LawfulFile φ] {content : Bytes} {es : List LogEntry}

theorem Verdict.of_refused {failure : Failure} (hne : content ≠ [])
    (h : Refused content es failure) : Verdict φ content es (.error failure) content where
  blank hnil := absurd hnil hne
  refused_iff := ⟨fun _ => ⟨failure, h⟩, fun _ => ⟨failure, rfl⟩⟩
  refused _ heq := by
    cases heq
    exact ⟨h, rfl⟩
  opened _ _ _ heq := by cases heq
  again _ _ heq := by cases heq

/-- A file without a remnant is opened as it is. -/
theorem openFile_whole {f : φ} {h : Header} (hcalm : Calm f)
    (hf : Finds f (h.encode ++ encodeAll es)) (hknown : h.Known)
    (hfits : ∀ e ∈ es, e.Fits) (hv : h.Vouches es) (capacity : Nat) :
    ∃ log f', openFile capacity f = (.ok (log, { entries := es, truncated := 0 }), f') ∧
      Holds f' (h.encode ++ encodeAll es) := by
  obtain ⟨f', hrun, hf'⟩ := openFile_of_vouches hcalm hf hknown
    (LogEntry.parsed_encodeAll hfits) hv capacity
  exact ⟨_, f', hrun, hf'⟩

theorem Verdict.of_blank (log : Log) :
    Verdict φ [] [] (.ok (log, { entries := [], truncated := 0 })) ({} : Header).encode where
  blank _ := ⟨rfl, log, rfl⟩
  refused_iff := by
    constructor
    · rintro ⟨failure, heq⟩
      cases heq
    · rintro ⟨failure, hrefused⟩
      exact absurd hrefused Refused.not_nil
  refused _ heq := by cases heq
  opened hne := absurd rfl hne
  again log recovery heq capacity f hcalm hf := by
    have hbytes : ({} : Header).encode = ({} : Header).encode ++ encodeAll [] :=
      (List.append_nil _).symm
    rw [hbytes] at hf ⊢
    exact openFile_whole hcalm hf (by decide) (by simp) (vouches_default []) capacity

theorem Verdict.of_vouches {h : Header} {body tail : Bytes} (log : Log) (hknown : h.Known)
    (hp : Parsed body es tail) (hv : h.Vouches es) :
    Verdict φ (h.encode ++ body) es (.ok (log, { entries := es, truncated := tail.length }))
      (h.encode ++ encodeAll es) where
  blank hnil := absurd hnil (h.encode_append_ne_nil body)
  refused_iff := by
    constructor
    · rintro ⟨failure, heq⟩
      cases heq
    · rintro ⟨failure, hrefused⟩
      exact absurd hrefused (Refused.not_of_vouches hknown hv)
  refused _ heq := by cases heq
  opened _ _ _ heq := by
    cases heq
    have hwidth : Header.width + (encodeAll es).length = (h.encode ++ encodeAll es).length := by
      rw [List.length_append, h.length_encode]
    rw [hp.bytes_eq, ← List.append_assoc, hwidth, List.take_left, List.length_append,
      Nat.add_sub_cancel_left]
    exact ⟨rfl, rfl⟩
  again _ _ _ capacity f hcalm hf := openFile_whole hcalm hf hknown hp.fits hv capacity

/-- A calm file is refused exactly for the reasons above, and left as it is.  If it
is opened, the entries are all those that are complete, the file is cut behind
the last of them, and opening it again finds the same. -/
theorem openFile_accepts {f : φ} (hcalm : Calm f) (hf : Finds f content) (capacity : Nat) :
    ∃ es reply f' content', Longest (content.drop Header.width) es ∧
      openFile capacity f = (reply, f') ∧ Holds f' content' ∧
      Verdict φ content es reply content' := by
  obtain ⟨reply, f', hrun, hcome⟩ := openFile_opening hf capacity
  obtain ⟨content', hopening, hf', -⟩ := hcome.resolve_right fun hio => hio.1 hcalm
  have hbody (h : Header) (body : Bytes) : (h.encode ++ body).drop Header.width = body :=
    List.drop_left' h.length_encode
  cases hopening with
  | blank =>
      have hnone : Parsed (encodeAll []) [] [] := LogEntry.parsed_encodeAll (by simp)
      exact ⟨[], _, f', _, hnone.longest, hrun, hf', .of_blank _⟩
  | short hlong hlength =>
      obtain ⟨es, tail, hp⟩ := LogEntry.exists_parsed (content.drop Header.width)
      exact ⟨es, _, f', _, hp.longest, hrun, hf', .of_refused hlong (.short hlong hlength)⟩
  | foreign hknown =>
      rename_i h body
      obtain ⟨es, tail, hp⟩ := LogEntry.exists_parsed body
      rw [← hbody h body] at hp
      exact ⟨es, _, f', _, hp.longest, hrun, hf',
        .of_refused (h.encode_append_ne_nil body) (.of_not_known hknown)⟩
  | damaged damage hknown hp hv =>
      rename_i h body tail es
      refine ⟨es, _, f', _, ?_, hrun, hf',
        .of_refused (h.encode_append_ne_nil body) (.of_not_vouches _ hknown hv)⟩
      rw [hbody]
      exact hp.longest
  | sound hknown hp hv =>
      rename_i h body tail es
      refine ⟨es, _, f', _, ?_, hrun, hf', .of_vouches _ hknown hp hv⟩
      rw [hbody]
      exact hp.longest

end

/-- A file with one entry, which the header counts, and three bytes of another. -/
theorem openFile_accepts_torn : ∃ (a : LogEntry) (log : Log) (d : Disk),
    openFile 0 ({ entry := .file ((opened 0 [a]).header.encode ++ (a.encode ++ [0, 0, 0])) } : Disk)
        = (.ok (log, { entries := [a], truncated := 3 }), d) ∧
      Holds d ((opened 0 [a]).header.encode ++ a.encode) := by
  let a : LogEntry := ⟨[0x61], [0x31]⟩
  have hp : Parsed (a.encode ++ [0, 0, 0]) [a] [0, 0, 0] :=
    .cons (by decide) ⟨rfl, nofun, LogEntry.remnant_of_short (by decide)⟩
  have hv : (opened 0 [a]).header.Vouches [a] := vouches_header rfl rfl (by decide)
  have hknown := known_header (opened 0 [a])
  refine ⟨a, ?_⟩
  generalize (opened 0 [a]).header = h at hv hknown ⊢
  obtain ⟨es, reply, d, content', hlongest, hrun, hd, hverdict⟩ := openFile_accepts
    (Disk.calm_file _) (Disk.finds_file (h.encode ++ (a.encode ++ [0, 0, 0]))) 0
  rw [List.drop_left' h.length_encode] at hlongest
  obtain rfl := hlongest.unique hp.longest
  cases reply with
  | error failure =>
      exact absurd (hverdict.refused failure rfl).1 (Refused.not_of_vouches hknown hv)
  | ok opened =>
      obtain ⟨log, recovery⟩ := opened
      obtain ⟨hrecovery, hcut⟩ :=
        hverdict.opened (h.encode_append_ne_nil _) log recovery rfl
      have hwidth : Header.width + (encodeAll [a]).length = (h.encode ++ a.encode).length := by
        simp
      rw [hwidth, ← List.append_assoc, List.length_append, Nat.add_sub_cancel_left] at hrecovery
      rw [hwidth, ← List.append_assoc, List.take_left] at hcut
      exact ⟨log, d, hrecovery ▸ hrun, hcut ▸ hd⟩

end Log

end Leaderboard
