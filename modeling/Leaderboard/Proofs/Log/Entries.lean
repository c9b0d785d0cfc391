import Leaderboard.Log.Entry

/-!
# Cutting bytes into entries

Entries are told apart by their lengths alone, so bytes are cut into entries in
one way.  An entry whose fields are not too long for their length fields `Fits`,
and is read back from the front of whatever it is written before.  `Parsed` says
of bytes that they are some entries and a remnant, which does not begin with a
complete entry.  Every byte string has such a cut (`exists_parsed`), and it has
all the complete entries at the front (`Parsed.longest`).

`Replay.run_of_parsed` says that a replay finds this cut.  What a replay is
after each entry, `Replay.after`, depends on the entries up to there only.
-/

namespace Leaderboard

namespace LogEntry

/-! ## One entry -/

/-- The length of each field can be told in its length field. -/
def Fits (e : LogEntry) : Prop := e.key.length < UInt32.size ∧ e.value.length < UInt32.size

instance : DecidablePred Fits := fun _ => inferInstanceAs (Decidable (_ ∧ _))

/-- The failure of an entry that does not fit: its key is too long, or else its value. -/
def refusal (e : LogEntry) : Failure :=
  .encode (if e.key.length < UInt32.size then "value" else "key") .fieldTooLong

theorem exists_refusal_eq (e : LogEntry) : ∃ field, e.refusal = .encode field .fieldTooLong :=
  ⟨_, rfl⟩

/-- An entry whose key has one byte more than a length field can tell. -/
def tooLong : LogEntry := { key := List.replicate UInt32.size 0, value := [] }

theorem length_key_tooLong : tooLong.key.length = UInt32.size := List.length_replicate

theorem not_fits_tooLong : ¬ tooLong.Fits := fun h => Nat.ne_of_lt h.1 length_key_tooLong

theorem refusal_tooLong : tooLong.refusal = .encode "key" .fieldTooLong := by
  rw [refusal, length_key_tooLong, if_neg (Nat.lt_irrefl _)]

theorem readField_append {field : LogField} {position : Nat} {content : Bytes}
    (h : content.length < UInt32.size) (rest : Bytes) :
    readField field position (Bytes.ofNatBE 4 content.length ++ (content ++ rest)) =
      .ok (content, rest) := by
  have hdigits : Bytes.toNatBE (Bytes.ofNatBE 4 content.length) = content.length :=
    Bytes.toNatBE_ofNatBE h
  simp only [readField, Bytes.split?_append (Bytes.length_ofNatBE 4 content.length), hdigits]
  rw [Bytes.split?_append rfl]

/-- An entry that fits is read back from the front of a byte string. -/
theorem read_append {e : LogEntry} (h : e.Fits) (position : Nat) (rest : Bytes) :
    read position (e.encode ++ rest) = .ok (e, rest) := by
  have hbytes : e.encode ++ rest =
      Bytes.ofNatBE 4 e.key.length ++ (e.key ++
        (Bytes.ofNatBE 4 e.value.length ++ (e.value ++ rest))) := by
    simp [encode, pieces]
  rw [read, hbytes, readField_append h.1]
  simp only [bind, Except.bind, readField_append h.2]
  rfl

/-- An entry that is read fits. -/
theorem fits_of_read {position : Nat} {bs rest : Bytes} {e : LogEntry}
    (h : read position bs = .ok (e, rest)) : e.Fits := by
  obtain ⟨tail, hk, hv⟩ := read_fields h
  exact ⟨(readField_eq_ok hk).2, (readField_eq_ok hv).2⟩

/-- Of two entries that begin the same bytes, both are the same. -/
theorem encode_append_inj {e e' : LogEntry} {a b : Bytes} (h : e.Fits) (h' : e'.Fits)
    (heq : e.encode ++ a = e'.encode ++ b) : e = e' ∧ a = b := by
  have hread := read_append h 0 a
  rw [heq, read_append h' 0 b] at hread
  cases hread
  exact ⟨rfl, rfl⟩

theorem width_pos (e : LogEntry) : 0 < e.width := by
  unfold width
  omega

/-! ## Entries in a row -/

/-- The bytes of entries, one after the other. -/
def encodeAll (es : List LogEntry) : Bytes := es.flatMap encode

/-- What the checksum of entries is taken of: their keys and values, one after the
other. -/
def digested (es : List LogEntry) : Bytes := es.flatMap fun e => e.key ++ e.value

@[simp] theorem encodeAll_nil : encodeAll [] = [] := rfl

@[simp] theorem encodeAll_cons (e : LogEntry) (es : List LogEntry) :
    encodeAll (e :: es) = e.encode ++ encodeAll es := rfl

@[simp] theorem encodeAll_append (es fs : List LogEntry) :
    encodeAll (es ++ fs) = encodeAll es ++ encodeAll fs := List.flatMap_append

@[simp] theorem digested_nil : digested [] = [] := rfl

theorem digested_append (es fs : List LogEntry) :
    digested (es ++ fs) = digested es ++ digested fs := List.flatMap_append

theorem digest_eq (c : Checksum) (e : LogEntry) : e.digest c = c.write (digested [e]) := by
  simp [digest, digested, Checksum.write_append]

/-- An entry takes more than one byte. -/
theorem length_le_length_encodeAll (es : List LogEntry) :
    es.length ≤ (encodeAll es).length := by
  induction es with
  | nil => exact Nat.le_refl _
  | cons e es ih =>
      have hpos := e.width_pos
      simp only [List.length_cons, encodeAll_cons, List.length_append, length_encode]
      omega

/-! ## The cut -/

/-- No complete entry is at the front of these bytes. -/
def Remnant (bs : Bytes) : Prop := ∀ e : LogEntry, e.Fits → ¬ e.encode <+: bs

/-- Bytes that are these entries and a remnant. -/
structure Parsed (bs : Bytes) (es : List LogEntry) (tail : Bytes) : Prop where
  /-- The bytes are those of the entries and of the remnant. -/
  bytes_eq : bs = encodeAll es ++ tail
  /-- The entries are complete. -/
  fits : ∀ e ∈ es, e.Fits
  /-- There are no more. -/
  remnant : Remnant tail

/-- The longest list of complete entries at the front of bytes: all such lists are
first parts of it. -/
structure Longest (bs : Bytes) (es : List LogEntry) : Prop where
  /-- The entries are complete. -/
  fits : ∀ e ∈ es, e.Fits
  /-- They are at the front. -/
  front : encodeAll es <+: bs
  /-- There is no longer list of such entries. -/
  longest : ∀ fs : List LogEntry, (∀ e ∈ fs, e.Fits) → encodeAll fs <+: bs → fs <+: es

/-- The two lengths of an entry take eight bytes. -/
theorem remnant_of_short {bs : Bytes} (h : bs.length < 8) : Remnant bs := by
  intro e _ hfront
  have hlength := hfront.length_le
  rw [length_encode, width] at hlength
  omega

theorem remnant_of_read {position : Nat} {bs : Bytes} {damage : LogDamage}
    (h : read position bs = .error damage) : Remnant bs := by
  rintro e he ⟨rest, rfl⟩
  rw [read_append he] at h
  cases h

theorem parsed_encodeAll {es : List LogEntry} (h : ∀ e ∈ es, e.Fits) :
    Parsed (encodeAll es) es [] :=
  ⟨(List.append_nil _).symm, h, remnant_of_short (by simp)⟩

theorem Parsed.cons {bs tail : Bytes} {es : List LogEntry} {e : LogEntry} (he : e.Fits)
    (h : Parsed bs es tail) : Parsed (e.encode ++ bs) (e :: es) tail := by
  refine ⟨?_, ?_, h.remnant⟩
  · rw [encodeAll_cons, List.append_assoc, ← h.bytes_eq]
  · intro d hd
    cases hd with
    | head => exact he
    | tail _ hd => exact h.fits d hd

theorem Parsed.of_cons {bs tail : Bytes} {es : List LogEntry} {e : LogEntry}
    (h : Parsed bs (e :: es) tail) :
    e.Fits ∧ bs = e.encode ++ (encodeAll es ++ tail) ∧ Parsed (encodeAll es ++ tail) es tail :=
  ⟨h.fits e (.head _), by rw [h.bytes_eq, encodeAll_cons, List.append_assoc],
    rfl, fun d hd => h.fits d (.tail _ hd), h.remnant⟩

/-- Bytes behind complete entries are cut on their own. -/
theorem Parsed.behind {bs tail : Bytes} {es fs : List LogEntry} (h : Parsed bs es tail)
    (hfs : ∀ e ∈ fs, e.Fits) : Parsed (encodeAll fs ++ bs) (fs ++ es) tail where
  bytes_eq := by
    rw [encodeAll_append, List.append_assoc, ← h.bytes_eq]
  fits e he := (List.mem_append.mp he).elim (hfs e) (h.fits e)
  remnant := h.remnant

/-- Every byte string is some entries and a remnant. -/
theorem exists_parsed (bs : Bytes) : ∃ es tail, Parsed bs es tail := by
  -- the induction is on the length: an entry at the front leaves fewer bytes
  induction hn : bs.length using Nat.strongRecOn generalizing bs with
  | ind n ih =>
    by_cases hfront : ∃ e : LogEntry, e.Fits ∧ e.encode <+: bs
    · obtain ⟨e, he, rest, rfl⟩ := hfront
      have hpos := e.width_pos
      rw [List.length_append, length_encode] at hn
      obtain ⟨es, tail, h⟩ := ih rest.length (by omega) rest rfl
      exact ⟨e :: es, tail, h.cons he⟩
    · exact ⟨[], bs, rfl, by simp, fun e he hpre => hfront ⟨e, he, hpre⟩⟩

theorem Parsed.longest {bs tail : Bytes} {es : List LogEntry} (h : Parsed bs es tail) :
    Longest bs es := by
  refine ⟨h.fits, ⟨tail, h.bytes_eq.symm⟩, ?_⟩
  intro fs hfs hfront
  induction fs generalizing bs es with
  | nil => exact List.nil_prefix
  | cons f fs ih =>
      obtain ⟨rest, hrest⟩ := hfront
      rw [encodeAll_cons, List.append_assoc] at hrest
      have hf := hfs f (.head _)
      cases es with
      | nil =>
          have htail : bs = tail := h.bytes_eq
          exact absurd ⟨_, hrest.trans htail⟩ (h.remnant f hf)
      | cons e es =>
          obtain ⟨he, hbs, hparsed⟩ := h.of_cons
          obtain ⟨rfl, hsame⟩ := encode_append_inj hf he (hrest.trans hbs)
          have hpre := ih hparsed (fun d hd => hfs d (.tail _ hd)) ⟨rest, hsame⟩
          exact List.cons_prefix_cons.mpr ⟨rfl, hpre⟩

theorem Longest.unique {bs : Bytes} {es fs : List LogEntry} (h : Longest bs es)
    (h' : Longest bs fs) : es = fs := by
  have hle := h'.longest es h.fits h.front
  have hge := h.longest fs h'.fits h'.front
  exact hle.eq_of_length (Nat.le_antisymm hle.length_le hge.length_le)

/-- A first part of the bytes of entries is cut into a first part of the entries. -/
theorem Parsed.of_front {bs tail : Bytes} {es fs : List LogEntry} (h : Parsed bs es tail)
    (hfs : ∀ e ∈ fs, e.Fits) (hfront : bs <+: encodeAll fs) : es <+: fs :=
  (parsed_encodeAll hfs).longest.longest es h.fits ((List.prefix_append _ _).trans
    (h.bytes_eq ▸ hfront))

end LogEntry

/-! ## Replays -/

namespace Replay

open LogEntry

/-- The replay after entries that leave these bytes. -/
def after (r : Replay) (es : List LogEntry) (rest : Bytes) : Replay where
  rest := .bytes rest
  checksum := r.checksum.write (digested es)
  offset := r.offset + (encodeAll es).length
  count := r.count + es.length

/-- The steps of a replay over entries and a remnant. -/
def trail (r : Replay) : List LogEntry → Bytes → List (LogEntry × Replay)
  | [], _ => []
  | e :: es, tail =>
      let s := r.advance e (encodeAll es ++ tail)
      (e, s) :: s.trail es tail

theorem advance_eq_after (r : Replay) (e : LogEntry) (rest : Bytes) :
    r.advance e rest = r.after [e] rest := by
  simp [advance, after, digest_eq]

theorem after_after (r : Replay) (es fs : List LogEntry) (rest rest' : Bytes) :
    (r.after es rest).after fs rest' = r.after (es ++ fs) rest' := by
  simp [after, digested_append, Checksum.write_append, Nat.add_assoc]

theorem advance_after (r : Replay) (e : LogEntry) (es : List LogEntry) (rest rest' : Bytes) :
    (r.advance e rest).after es rest' = r.after (e :: es) rest' := by
  rw [advance_eq_after, after_after, List.singleton_append]

theorem map_fst_trail (r : Replay) (es : List LogEntry) (tail : Bytes) :
    (r.trail es tail).map Prod.fst = es := by
  induction es generalizing r with
  | nil => rfl
  | cons e es ih => rw [trail, List.map_cons, ih]

/-- Where the replay is at the end. -/
theorem getLast?_trail {r : Replay} {es : List LogEntry} {tail : Bytes}
    (hr : r.rest = .bytes (encodeAll es ++ tail)) :
    ((r.trail es tail).getLast?.map Prod.snd).getD r = r.after es tail := by
  induction es generalizing r with
  | nil =>
      simp only [trail, List.getLast?_nil, Option.map_none, Option.getD_none]
      rw [encodeAll_nil, List.nil_append] at hr
      simp [after, ← hr]
  | cons e es ih =>
      have hnext := ih (r := r.advance e (encodeAll es ++ tail)) rfl
      rw [advance_after] at hnext
      rw [← hnext, trail, List.getLast?_cons]
      cases (r.advance e (encodeAll es ++ tail)).trail es tail |>.getLast? with
      | none => rfl
      | some last => rfl

/-- Where the replay is after `n` of the entries. -/
theorem find?_trail (r : Replay) {es : List LogEntry} (tail : Bytes) {n : Nat} (hn : 0 < n)
    (hle : n ≤ es.length) :
    ((r.trail es tail).map Prod.snd).find? (·.count == r.count + n) =
      some (r.after (es.take n) (encodeAll (es.drop n) ++ tail)) := by
  induction es generalizing r n with
  | nil =>
      rw [List.length_nil] at hle
      omega
  | cons e es ih =>
      have hcount : (r.advance e (encodeAll es ++ tail)).count = r.count + 1 := rfl
      rw [trail, List.map_cons]
      cases n with
      | zero => omega
      | succ n =>
          by_cases hzero : n = 0
          · subst hzero
            rw [List.find?_cons_of_pos (by simp [hcount]), advance_eq_after]
            rfl
          · have hmiss : ¬ ((r.advance e (encodeAll es ++ tail)).count == r.count + (n + 1)) := by
              simp only [hcount, beq_iff_eq]
              omega
            rw [List.length_cons] at hle
            have hrest := ih (r.advance e (encodeAll es ++ tail)) (n := n) (by omega) (by omega)
            rw [hcount, Nat.add_assoc, Nat.add_comm 1 n, advance_after] at hrest
            rw [List.find?_cons_of_neg (p := fun s : Replay => s.count == r.count + (n + 1)) hmiss,
              hrest]
            rfl

theorem count_of_mem_trail {r s : Replay} {es : List LogEntry} {tail : Bytes}
    (h : s ∈ (r.trail es tail).map Prod.snd) :
    r.count < s.count ∧ s.count ≤ r.count + es.length := by
  induction es generalizing r with
  | nil => cases h
  | cons e es ih =>
      have hcount : (r.advance e (encodeAll es ++ tail)).count = r.count + 1 := rfl
      rw [List.length_cons]
      cases h with
      | head =>
          simp only [hcount]
          omega
      | tail _ h =>
          have hrest := ih h
          omega

/-- No step comes before the first entry or after the last one. -/
theorem find?_trail_eq_none (r : Replay) (es : List LogEntry) (tail : Bytes) {n : Nat}
    (h : n = 0 ∨ es.length < n) :
    ((r.trail es tail).map Prod.snd).find? (·.count == r.count + n) = none := by
  rw [List.find?_eq_none]
  intro s hs
  have hcount := count_of_mem_trail hs
  simp only [beq_iff_eq]
  omega

theorem run_of_end {r : Replay} (h : r.next = .ok none) : r.run = ⟨[], none⟩ := by
  rw [run]
  split <;> simp_all

theorem run_of_error {r : Replay} {failure : Failure} (h : r.next = .error failure) :
    r.run = ⟨[], some failure⟩ := by
  rw [run]
  split <;> simp_all

theorem run_of_entry {r s : Replay} {e : LogEntry} (h : r.next = .ok (some (e, s))) :
    r.run = ⟨(e, s) :: s.run.steps, s.run.stop⟩ := by
  rw [run]
  split <;> simp_all

theorem next_remnant {r : Replay} {tail : Bytes} (hr : r.rest = .bytes tail)
    (h : Remnant tail) :
    (tail = [] ∧ r.next = .ok none) ∨
      (tail ≠ [] ∧ ∃ damage, r.next = .error (.corruptedLog damage)) := by
  cases tail with
  | nil => exact .inl ⟨rfl, by simp [next, hr]⟩
  | cons b bs =>
      refine .inr ⟨List.cons_ne_nil b bs, ?_⟩
      cases hread : LogEntry.read r.offset (b :: bs) with
      | error damage => exact ⟨damage, by simp [next, hr, hread]⟩
      | ok cut =>
          obtain ⟨e, rest⟩ := cut
          exact absurd ⟨rest, (read_eq_ok hread).symm⟩ (h e (fits_of_read hread))

theorem next_encode {r : Replay} {e : LogEntry} {rest : Bytes} (he : e.Fits)
    (hr : r.rest = .bytes (e.encode ++ rest)) : r.next = .ok (some (e, r.advance e rest)) := by
  have hread := read_append he r.offset rest
  cases hbytes : e.encode ++ rest with
  | nil =>
      have hlength := congrArg List.length hbytes
      have hpos := e.width_pos
      rw [List.length_append, length_encode, List.length_nil] at hlength
      omega
  | cons b bs =>
      rw [hbytes] at hr hread
      simp [next, hr, hread]

/-- A replay finds the complete entries, and stops at the remnant behind them. -/
theorem run_of_parsed {r : Replay} {bs tail : Bytes} {es : List LogEntry}
    (hr : r.rest = .bytes bs) (h : Parsed bs es tail) :
    r.run.steps = r.trail es tail ∧
      ((tail = [] ∧ r.run.stop = none) ∨
        (tail ≠ [] ∧ ∃ damage, r.run.stop = some (.corruptedLog damage))) := by
  induction es generalizing r bs with
  | nil =>
      rw [h.bytes_eq, encodeAll_nil, List.nil_append] at hr
      cases next_remnant hr h.remnant with
      | inl hend =>
          obtain ⟨htail, hnext⟩ := hend
          rw [run_of_end hnext]
          exact ⟨rfl, .inl ⟨htail, rfl⟩⟩
      | inr hstop =>
          obtain ⟨htail, damage, hnext⟩ := hstop
          rw [run_of_error hnext]
          exact ⟨rfl, .inr ⟨htail, damage, rfl⟩⟩
  | cons e es ih =>
      obtain ⟨he, hbs, hparsed⟩ := h.of_cons
      rw [hbs] at hr
      obtain ⟨hsteps, hstop⟩ := ih (r := r.advance e (encodeAll es ++ tail)) rfl hparsed
      rw [run_of_entry (next_encode he hr), trail]
      exact ⟨congrArg _ hsteps, hstop⟩

end Replay

end Leaderboard
