import Leaderboard.Proofs.Checksum
import Leaderboard.Proofs.Log.Sessions

/-!
# Damage to synced entries

The header of a log has the checksum of the keys and values of the entries that were
synced, one after the other, and not of their lengths.

So damage to these keys and values that lies within 64 consecutive bits of them is
always noticed: the log is refused and its file left as it is (`AtRest.burst_refused`).

A length that is replaced cuts the bytes behind it anew.  The log is refused if fewer
entries come out than were synced, or if the first of them have another checksum.  But
they may have the same checksum: then the log is opened with wrong entries
(`AtRest.relabelled`, `AtRest.shortened_value_opens`).
-/

namespace Leaderboard

open File (Holds Finds)
open LawfulFile (Calm)
open LogEntry (encodeAll digested Parsed)

/-! ## Entries of other contents and of other lengths -/

namespace LogEntry

/-- The lengths of the key and of the value. -/
def lengths (e : LogEntry) : Nat × Nat := (e.key.length, e.value.length)

/-- A field of an entry. -/
def field (e : LogEntry) : LogField → Bytes
  | .key => e.key
  | .value => e.value

/-- The bytes of an entry with another number in the length of a field. -/
def relabelled (e : LogEntry) : LogField → Nat → Bytes
  | .key, length => Bytes.ofNatBE 4 length ++ e.key ++ Bytes.ofNatBE 4 e.value.length ++ e.value
  | .value, length => Bytes.ofNatBE 4 e.key.length ++ e.key ++ Bytes.ofNatBE 4 length ++ e.value

theorem fits_of_lengths {es fs : List LogEntry} (h : fs.map lengths = es.map lengths)
    (hes : ∀ e ∈ es, e.Fits) : ∀ f ∈ fs, f.Fits := by
  intro f hf
  have hmem : f.lengths ∈ es.map lengths := h ▸ List.mem_map_of_mem hf
  obtain ⟨e, he, hlengths⟩ := List.mem_map.mp hmem
  obtain ⟨hkey, hvalue⟩ := Prod.mk.inj hlengths
  exact ⟨hkey ▸ (hes e he).1, hvalue ▸ (hes e he).2⟩

/-- With another length an entry is not at the front. -/
theorem relabelled_append_ne {e : LogEntry} (he : e.Fits) {field : LogField} {length : Nat}
    (hlength : length < UInt32.size) (hne : length ≠ (e.field field).length) (a b : Bytes) :
    e.relabelled field length ++ a ≠ e.encode ++ b := by
  intro heq
  cases field with
  | key =>
      simp only [relabelled, encode, pieces, List.flatten_cons, List.append_assoc] at heq
      have hdigits := (List.append_inj heq (by simp)).1
      exact hne (Bytes.ofNatBE_inj (w := 4) hlength he.1 hdigits)
  | value =>
      simp only [relabelled, encode, pieces, List.flatten_cons, List.append_assoc] at heq
      have hrest := List.append_cancel_left (List.append_cancel_left heq)
      have hdigits := (List.append_inj hrest (by simp)).1
      exact hne (Bytes.ofNatBE_inj (w := 4) hlength he.2 hdigits)

/-- The bytes of some entries go on behind those before a place with the one at it. -/
theorem encodeAll_take {es : List LogEntry} {place n : Nat} (hn : place < n)
    (hplace : place < es.length) :
    ∃ rest, encodeAll (es.take n) = encodeAll (es.take place) ++ (es[place].encode ++ rest) := by
  obtain ⟨later, hlater⟩ : es.take (place + 1) <+: es.take n := List.take_prefix_take_left hn
  rw [← hlater, ← List.take_append_getElem hplace, encodeAll_append, encodeAll_append,
    encodeAll_cons, encodeAll_nil, List.append_nil, List.append_assoc]
  exact ⟨_, rfl⟩

/-- If an entry has another length, those before it are cut as they were, and what is cut
behind them is not the entry. -/
theorem Parsed.of_relabelled {before got : List LogEntry} {e : LogEntry} {field : LogField}
    {length : Nat} {rest tail : Bytes}
    (hp : Parsed (encodeAll before ++ (e.relabelled field length ++ rest)) got tail)
    (hbefore : ∀ d ∈ before, d.Fits) (he : e.Fits) (hlength : length < UInt32.size)
    (hne : length ≠ (e.field field).length) : before <+: got ∧ got[before.length]? ≠ some e := by
  obtain ⟨more, rfl⟩ := hp.longest.longest before hbefore (List.prefix_append _ _)
  refine ⟨List.prefix_append _ _, fun hsame => ?_⟩
  rw [List.getElem?_append_right (Nat.le_refl _), Nat.sub_self] at hsame
  cases more with
  | nil => cases hsame
  | cons d later =>
      obtain rfl : d = e := Option.some.inj hsame
      have hbody := hp.bytes_eq
      rw [encodeAll_append, encodeAll_cons, List.append_assoc, List.append_assoc] at hbody
      exact relabelled_append_ne he hlength hne _ _ (List.append_cancel_left hbody)

end LogEntry

/-! ## The synced entries of a log at rest -/

section

variable {φ : Type} [File φ] [LawfulFile φ] {c : Bytes} {es : List LogEntry} {marks : List Mark}
  {clean : Bool} {header : Header} {f : φ}

/-- The file of a log goes on behind the entries that were synced, for which the header
speaks. -/
theorem AtRest.synced (h : AtRest φ c es marks clean) (hheader : header.encode <+: c) :
    header.Known ∧ header.Vouches es ∧ (∀ e ∈ es, e.Fits) ∧
      ∃ rest, c = header.encode ++ (encodeAll (es.take header.entryCount.toNat) ++ rest) := by
  cases h.rests.leads with
  | inl hnew =>
      obtain ⟨rfl, -, -⟩ := hnew
      obtain ⟨rest, hrest⟩ := hheader
      exact absurd hrest (header.encode_append_ne_nil rest)
  | inr hleads =>
      generalize Mark.latest marks = last at hleads
      obtain ⟨header', hwhole⟩ := hleads.whole
      obtain ⟨since, u, rfl, rfl, hfits, -, -⟩ := hleads.front
      rw [hwhole.bytes_eq, List.append_assoc] at hheader ⊢
      obtain rfl := Header.eq_of_front hheader
      refine ⟨hwhole.known, hwhole.vouches.append since,
        fun e he => (List.mem_append.mp he).elim (hwhole.fits e) (hfits e),
        encodeAll (last.entries.drop header.entryCount.toNat) ++ u, ?_⟩
      rw [List.take_append_of_le_length hwhole.vouches.count_le, ← List.append_assoc (encodeAll _),
        ← LogEntry.encodeAll_append, List.take_append_drop]

/-- A file is refused if the entries that its header counts have another checksum. -/
theorem Log.openFile_of_checksum_ne {fs : List LogEntry} {rest : Bytes} (hcalm : Calm f)
    (hf : Finds f (header.encode ++ (encodeAll fs ++ rest))) (hknown : header.Known)
    (hfits : ∀ e ∈ fs, e.Fits) (hpos : 0 < header.entryCount.toNat)
    (hcount : fs.length = header.entryCount.toNat)
    (hsum : Checksum.of (digested fs) ≠ header.checksum) (capacity : Nat) :
    ∃ damage f', openFile capacity f = (.error (.corruptedLog damage), f') ∧
      Holds f' (header.encode ++ (encodeAll fs ++ rest)) := by
  obtain ⟨got, tail, hp⟩ := LogEntry.exists_parsed rest
  refine openFile_of_not_vouches hcalm hf hknown (hp.behind hfits) (fun hv => ?_) capacity
  have hsame := hv.checksum_eq hpos
  rw [← hcount, List.take_left] at hsame
  exact hsum hsame

/-- Damage to the keys and values of the synced entries that lies within 64 consecutive bits
of them is noticed: the log is refused, and its file left as it is. -/
theorem AtRest.burst_refused (h : AtRest φ c es marks clean) (hheader : header.encode <+: c)
    (hpos : 0 < header.entryCount.toNat) :
    ∃ rest, c = header.encode ++ (encodeAll (es.take header.entryCount.toNat) ++ rest) ∧
      (es.take header.entryCount.toNat).length = header.entryCount.toNat ∧
      ∀ fs : List LogEntry,
        fs.map LogEntry.lengths = (es.take header.entryCount.toNat).map LogEntry.lengths →
        Bytes.Burst (digested (es.take header.entryCount.toNat)) (digested fs) →
        ∀ {f : φ}, Calm f → Finds f (header.encode ++ (encodeAll fs ++ rest)) →
          ∀ capacity, ∃ damage f', Log.openFile capacity f = (.error (.corruptedLog damage), f') ∧
            Holds f' (header.encode ++ (encodeAll fs ++ rest)) := by
  obtain ⟨hknown, hvouches, hfits, rest, hc⟩ := h.synced hheader
  have hcount : (es.take header.entryCount.toNat).length = header.entryCount.toNat :=
    List.length_take_of_le hvouches.count_le
  refine ⟨rest, hc, hcount, fun fs hlengths hburst f hcalm hf capacity => ?_⟩
  have hfs : fs.length = header.entryCount.toNat := by
    have hmaps := congrArg List.length hlengths
    rwa [List.length_map, List.length_map, hcount] at hmaps
  have hfits' := LogEntry.fits_of_lengths hlengths fun e he => hfits e (List.mem_of_mem_take he)
  refine Log.openFile_of_checksum_ne hcalm hf hknown hfits' hpos hfs (fun hsum => ?_) capacity
  have hsame := hsum.trans (hvouches.checksum_eq hpos).symm
  exact Checksum.write_ne_of_burst hburst .initial (congrArg Checksum.mk hsame.symm)

/-- The last bit of a key and the first bit of its value are flipped. -/
theorem AtRest.burst_refused_disk : ∃ (a b : LogEntry) (header : Header),
    AtRest Disk (header.encode ++ a.encode) [a] [Log.settled [a]] false ∧
      Bytes.Burst (a.key ++ a.value) (b.key ++ b.value) ∧
      ∃ damage d', Log.openFile 0 ({ entry := .file (header.encode ++ b.encode) } : Disk) =
        (.error (.corruptedLog damage), d') ∧ Holds d' (header.encode ++ b.encode) := by
  let a : LogEntry := ⟨[0x61], [0x31]⟩
  let b : LogEntry := ⟨[0x60], [0xb1]⟩
  have hburst : Bytes.Burst (a.key ++ a.value) (b.key ++ b.value) :=
    .of_short rfl (by decide) (by decide)
  have hrests := AtRest.settled_singleton (e := a) (by decide) (by decide)
  obtain ⟨rest, hc, -, hrefused⟩ := hrests.burst_refused (List.prefix_append _ _) (by decide)
  obtain rfl : [] = rest :=
    List.append_cancel_left ((List.append_nil _).trans (List.append_cancel_left hc))
  obtain ⟨damage, d', hrun, hd⟩ := hrefused [b] rfl hburst (Disk.calm_file _) (Disk.finds_file _) 0
  exact ⟨a, b, _, hrests, hburst, damage, d', hrun, hd⟩

/-- With another number in the length of a field of a synced entry the bytes are cut anew, with
the same entries before it and not the same at its place.  The log is refused if the header does
not speak for these entries, and else opened with them. -/
theorem AtRest.relabelled (h : AtRest φ c es marks clean) (hheader : header.encode <+: c)
    {place : Nat} (hplace : place < header.entryCount.toNat) :
    ∃ e rest, es[place]? = some e ∧
      c = header.encode ++ (encodeAll (es.take place) ++ (e.encode ++ rest)) ∧
      ∀ (field : LogField) (length : Nat), length < UInt32.size →
        length ≠ (e.field field).length →
        let body := encodeAll (es.take place) ++ (e.relabelled field length ++ rest)
        ∃ got tail, Parsed body got tail ∧ es.take place <+: got ∧ got[place]? ≠ some e ∧
          ∀ {f : φ}, Calm f → Finds f (header.encode ++ body) → ∀ capacity,
            (header.Vouches got → ∃ log f', Log.openFile capacity f =
              (.ok (log, { entries := got, truncated := tail.length }), f')) ∧
            (¬ header.Vouches got → ∃ damage f', Log.openFile capacity f =
              (.error (.corruptedLog damage), f') ∧ Holds f' (header.encode ++ body)) := by
  obtain ⟨hknown, hvouches, hfits, later, hc⟩ := h.synced hheader
  have hlt : place < es.length := Nat.lt_of_lt_of_le hplace hvouches.count_le
  obtain ⟨rest, hcut⟩ := LogEntry.encodeAll_take hplace hlt
  rw [hcut, List.append_assoc, List.append_assoc] at hc
  refine ⟨es[place], _, List.getElem?_eq_getElem hlt, hc, fun field length hlength hne => ?_⟩
  intro body
  obtain ⟨got, tail, hp⟩ := LogEntry.exists_parsed body
  obtain ⟨hbefore, hother⟩ := hp.of_relabelled (fun e he => hfits e (List.mem_of_mem_take he))
    (hfits _ (List.getElem_mem hlt)) hlength hne
  rw [List.length_take_of_le (Nat.le_of_lt hlt)] at hother
  refine ⟨got, tail, hp, hbefore, hother, fun {f} hcalm hf capacity => ⟨fun hv => ?_, fun hv => ?_⟩⟩
  · obtain ⟨f', hrun, -⟩ := Log.openFile_of_vouches hcalm hf hknown hp hv capacity
    exact ⟨_, f', hrun⟩
  · exact Log.openFile_of_not_vouches hcalm hf hknown hp hv capacity

/-- A longer value than there are bytes. -/
theorem AtRest.relabelled_disk : ∃ (a : LogEntry) (header : Header),
    AtRest Disk (header.encode ++ a.encode) [a] [Log.settled [a]] false ∧
      ∃ damage d', Log.openFile 0
          ({ entry := .file (header.encode ++ a.relabelled .value 2) } : Disk) =
        (.error (.corruptedLog damage), d') ∧
          Holds d' (header.encode ++ a.relabelled .value 2) := by
  let a : LogEntry := ⟨[0x61], [0x31]⟩
  have hrests := AtRest.settled_singleton (e := a) (by decide) (by decide)
  obtain ⟨e, rest, he, hc, hcut⟩ :=
    hrests.relabelled (List.prefix_append _ _) (show 0 < _ by decide)
  obtain rfl : a = e := Option.some.inj he
  obtain rfl : [] = rest :=
    List.append_cancel_left ((List.append_nil _).trans (List.append_cancel_left hc))
  obtain ⟨got, tail, hp, -, -, hopen⟩ := hcut .value 2 (by decide) (by decide)
  have hbytes : a.relabelled .value 2 ++ [] = [0, 0, 0, 1, 0x61, 0, 0, 0, 2, 0x31] := by decide
  have hread : LogEntry.read 0 (a.relabelled .value 2 ++ []) = .error (.overrun .value 2 9) := by
    rw [hbytes]
    rfl
  have hnone : Parsed (a.relabelled .value 2 ++ []) [] (a.relabelled .value 2 ++ []) :=
    ⟨rfl, nofun, LogEntry.remnant_of_read hread⟩
  obtain rfl := hp.longest.unique hnone.longest
  obtain ⟨damage, d', hrun, hd⟩ := (hopen (Disk.calm_file _) (Disk.finds_file _) 0).2
    fun hv => absurd hv.count_le (by decide)
  exact ⟨a, _, hrests, damage, d', hrun, hd⟩

/-- A value of one zero byte, whose length is replaced by nought: the checksum of no bytes is
that of a zero byte, so the log is opened with an empty value, and the byte is cut off. -/
theorem AtRest.shortened_value_opens : ∃ (a b : LogEntry) (header : Header) (log : Log) (d : Disk),
    AtRest Disk (header.encode ++ a.encode) [a] [Log.settled [a]] false ∧
      header.entryCount = 1 ∧ a.value.length ≠ 0 ∧ a ≠ b ∧
      Log.openFile 0 ({ entry := .file (header.encode ++ a.relabelled .value 0) } : Disk) =
        (.ok (log, { entries := [b], truncated := 1 }), d) := by
  let a : LogEntry := ⟨[], [0]⟩
  let b : LogEntry := ⟨[], []⟩
  have hp : Parsed (b.encode ++ [0]) [b] [0] :=
    .cons (by decide) ⟨rfl, nofun, LogEntry.remnant_of_short (by decide)⟩
  have hv : (Log.opened 0 [a]).header.Vouches [b] := ⟨by decide, fun _ => by decide +kernel⟩
  obtain ⟨d, hrun, -⟩ := Log.openFile_of_vouches (Disk.calm_file _) (Disk.finds_file _)
    (Log.known_header (Log.opened 0 [a])) hp hv 0
  exact ⟨a, b, _, _, d, .settled_singleton (by decide) (by decide), rfl, by decide, by decide, hrun⟩

end

end Leaderboard
