import Leaderboard.Record.Node

/-!
# Reading what was written

`Codec.ReadsBack` says of a codec that it reads every value of some kind back
from the front of a byte string, and `Codec.ReadsOnly` that nothing else is read:
the bytes that were read are those of the value.  The combinators keep both, so they
hold of the body of a node, and `Node.decode_encode` and `Node.decode_eq_ok` say them
of whole node records.

Two things are not read back.  A text whose length does not fit in its length
field is not; `Codec.Fits` is said of the others, which are all texts that a
memory of 64-bit addresses can hold.  A rank key is read back from a node record
always, but on its own only with a slash in its place: such a key is `Made`, and
`RankKey.make` and `RankKey.decode` give no others.
-/

namespace Leaderboard

namespace Codec

/-- A sequence of two steps succeeds if both do. -/
theorem bind_eq_ok {ε α β : Type} {x : Except ε α} {f : α → Except ε β} {b : β} :
    (x >>= f) = .ok b ↔ ∃ a, x = .ok a ∧ f a = .ok b := by
  cases x with
  | error e => simp [bind, Except.bind]
  | ok a => simp [bind, Except.bind]

/-! ## Combinators -/

/-- Every value of some kind is read back from the front of a byte string. -/
def ReadsBack {α : Type} (c : Codec α) (Kind : α → Prop) : Prop :=
  ∀ a, Kind a → ∀ rest, c.decode (c.encode a ++ rest) = .ok (a, rest)

theorem take_append {n : Nat} {a : Bytes} (h : a.length = n) (b : Bytes) :
    take n (a ++ b) = .ok (a, b) := by
  rw [take, Bytes.split?_append h]

theorem take_eq_ok {n : Nat} {bs a b : Bytes} (h : take n bs = .ok (a, b)) :
    a.length = n ∧ bs = a ++ b := by
  unfold take at h
  split at h
  · rename_i cut hcut
    cases h
    exact Bytes.split?_eq_some hcut
  · cases h

theorem ReadsBack.map {α β : Type} {c : Codec α} {there : α → β} {back : β → α}
    {Kind : β → Prop} (hc : c.ReadsBack fun a => ∃ b, Kind b ∧ a = back b)
    (h : ∀ b, Kind b → there (back b) = b) : (c.map there back).ReadsBack Kind := by
  intro b hb rest
  have hd := hc (back b) ⟨b, hb, rfl⟩ rest
  simp only [Codec.map, hd]
  exact congrArg (fun x => Except.ok (x, rest)) (h b hb)

theorem ReadsBack.pair {α β : Type} {c : Codec α} {d : Codec β} {P : α → Prop} {Q : β → Prop}
    (hc : c.ReadsBack P) (hd : d.ReadsBack Q) :
    (c.pair d).ReadsBack fun p => P p.1 ∧ Q p.2 := by
  intro p hp rest
  have h₁ := hc p.1 hp.1 (d.encode p.2 ++ rest)
  have h₂ := hd p.2 hp.2 rest
  simp only [Codec.pair, List.append_assoc, h₁]
  simp only [bind, Except.bind, h₂]
  rfl

theorem ReadsBack.mono {α : Type} {c : Codec α} {P Q : α → Prop} (hc : c.ReadsBack Q)
    (h : ∀ a, P a → Q a) : c.ReadsBack P :=
  fun a ha rest => hc a (h a ha) rest

@[simp] theorem number_encode (w n : Nat) : (number w).encode n = Bytes.ofNatLE w n := rfl

theorem number_readsBack (w : Nat) : (number w).ReadsBack (· < Bytes.bound w) := by
  intro n hn rest
  have ht := take_append (Bytes.length_ofNatLE w n) rest
  simp only [number, ht]
  exact congrArg (fun x => Except.ok (x, rest)) (Bytes.toNatLE_ofNatLE hn)

theorem u32_readsBack : u32.ReadsBack fun _ => True := by
  apply ReadsBack.map (number_readsBack 4 |>.mono ?_)
  · intro w _
    exact UInt32.ofNat_toNat
  · rintro n ⟨w, -, rfl⟩
    exact w.toNat_lt

theorem ReadsBack.option {α : Type} {c : Codec α} {P : α → Prop} (hc : c.ReadsBack P) :
    c.option.ReadsBack fun o => ∀ a ∈ o, P a := by
  intro o ho rest
  cases o with
  | none => rfl
  | some a =>
      have htag : u8.decode (1 :: (c.encode a ++ rest)) = .ok (1, c.encode a ++ rest) := rfl
      have ha := hc a (ho a rfl) rest
      simp only [Codec.option, List.cons_append, htag]
      simp only [bind, Except.bind, ha]
      rfl

/-- Only the encodings of values of some kind are read. -/
def ReadsOnly {α : Type} (c : Codec α) (Kind : α → Prop) : Prop :=
  ∀ ⦃bs a rest⦄, c.decode bs = .ok (a, rest) → Kind a ∧ bs = c.encode a ++ rest

theorem ReadsOnly.map {α β : Type} {c : Codec α} {there : α → β} {back : β → α}
    {P : α → Prop} {Q : β → Prop} (hc : c.ReadsOnly P)
    (h : ∀ a, P a → Q (there a) ∧ back (there a) = a) : (c.map there back).ReadsOnly Q := by
  intro bs b rest hb
  obtain ⟨⟨a, rest'⟩, ha, hpure⟩ := bind_eq_ok.mp hb
  cases hpure
  obtain ⟨hP, hbs⟩ := hc ha
  obtain ⟨hQ, hback⟩ := h a hP
  exact ⟨hQ, by simp [hbs, Codec.map, hback]⟩

theorem ReadsOnly.pair {α β : Type} {c : Codec α} {d : Codec β} {P : α → Prop} {Q : β → Prop}
    (hc : c.ReadsOnly P) (hd : d.ReadsOnly Q) :
    (c.pair d).ReadsOnly fun p => P p.1 ∧ Q p.2 := by
  intro bs p rest h
  obtain ⟨⟨a, bs₁⟩, ha, h⟩ := bind_eq_ok.mp h
  obtain ⟨⟨b, bs₂⟩, hb, hpure⟩ := bind_eq_ok.mp h
  cases hpure
  obtain ⟨hP, hbs⟩ := hc ha
  obtain ⟨hQ, hbs₁⟩ := hd hb
  exact ⟨⟨hP, hQ⟩, by simp [hbs, hbs₁, Codec.pair]⟩

theorem number_readsOnly (w : Nat) : (number w).ReadsOnly (· < Bytes.bound w) := by
  intro bs n rest h
  obtain ⟨⟨digits, rest'⟩, htake, hpure⟩ := bind_eq_ok.mp h
  cases hpure
  obtain ⟨hlength, hbs⟩ := take_eq_ok htake
  subst hlength
  exact ⟨Bytes.toNatLE_lt digits, by rw [hbs, number_encode, Bytes.ofNatLE_toNatLE]⟩

theorem u8_readsOnly : u8.ReadsOnly fun _ => True :=
  (number_readsOnly 1).map fun _ hn => ⟨trivial, UInt8.toNat_ofNat_of_lt' hn⟩

theorem u32_readsOnly : u32.ReadsOnly fun _ => True :=
  (number_readsOnly 4).map fun _ hn => ⟨trivial, UInt32.toNat_ofNat_of_lt' hn⟩

theorem ReadsOnly.option {α : Type} {c : Codec α} {P : α → Prop} (hc : c.ReadsOnly P) :
    c.option.ReadsOnly fun o => ∀ a ∈ o, P a := by
  intro bs o rest h
  obtain ⟨⟨tag, bs₁⟩, htag, h⟩ := bind_eq_ok.mp h
  obtain ⟨-, hbs⟩ := u8_readsOnly htag
  have hone : u8.encode tag = [tag] := by simp [u8, Codec.map, number, Bytes.ofNatLE]
  rw [hone] at hbs
  dsimp only at h
  split at h
  next hzero =>
    cases h
    exact ⟨by simp, by rw [hbs, hzero]; rfl⟩
  next =>
    split at h
    next htag =>
      obtain ⟨⟨a, bs₂⟩, ha, hpure⟩ := bind_eq_ok.mp h
      cases hpure
      obtain ⟨hP, hbs₁⟩ := hc ha
      exact ⟨by simpa using hP, by rw [hbs, hbs₁, htag]; rfl⟩
    next => cases h

/-! ## Texts -/

/-- A text has as many bytes as fit in a length field. -/
def Fits (s : String) : Prop := s.utf8ByteSize < UInt64.size

instance (s : String) : Decidable (Fits s) := inferInstanceAs (Decidable (_ < _))

theorem length_ofString (s : String) : (Bytes.ofString s).length = s.utf8ByteSize := by
  simp [Bytes.ofString]

theorem text_readsBack : text.ReadsBack Fits := by
  intro s hs rest
  have hn : (Bytes.ofString s).length < Bytes.bound 8 := by
    rw [length_ofString]
    exact hs
  have hlen := number_readsBack 8 _ hn (Bytes.ofString s ++ rest)
  have htake := take_append (n := (Bytes.ofString s).length) rfl rest
  have hblob : blob.decode (blob.encode (Bytes.ofString s) ++ rest) =
      .ok (Bytes.ofString s, rest) := by
    simp only [blob, List.append_assoc]
    rw [← number_encode, hlen]
    exact htake
  simp only [text, hblob]
  simp only [bind, Except.bind, Bytes.toString?_ofString]
  rfl

theorem blob_readsOnly : blob.ReadsOnly (·.length < Bytes.bound 8) := by
  intro bs content rest h
  obtain ⟨⟨n, bs₁⟩, hnumber, htake⟩ := bind_eq_ok.mp h
  obtain ⟨hbound, hbs⟩ := number_readsOnly 8 hnumber
  obtain ⟨hlength, hbs₁⟩ := take_eq_ok htake
  subst hlength
  exact ⟨hbound, by simp [hbs, hbs₁, blob]⟩

theorem text_readsOnly : text.ReadsOnly Fits := by
  intro bs s rest h
  obtain ⟨⟨content, rest'⟩, hblob, h⟩ := bind_eq_ok.mp h
  obtain ⟨hbound, hbs⟩ := blob_readsOnly hblob
  cases hs : Bytes.toString? content with
  | none => simp [hs, throw, throwThe, MonadExceptOf.throw] at h
  | some s' =>
      simp only [hs] at h
      cases h
      have hcontent := Bytes.ofString_of_toString? hs
      rw [← hcontent, length_ofString] at hbound
      exact ⟨hbound, by rw [hbs, ← hcontent]; rfl⟩

/-- A value that takes up a whole byte string is read with nothing left. -/
theorem read_eq_ok {α : Type} {c : Codec α} {bs : Bytes} {a : α} :
    c.read bs = .ok a ↔ c.decode bs = .ok (a, []) := by
  rw [read, bind_eq_ok]
  constructor
  · rintro ⟨⟨a', rest⟩, hdecode, h⟩
    cases rest with
    | nil =>
        cases h
        exact hdecode
    | cons b bs => cases h
  · intro h
    exact ⟨_, h, rfl⟩

end Codec

/-! ## Rank keys -/

/-- Eight bytes are those of the count they spell. -/
theorem Count.encode_decode {bs : Bytes} (h : bs.length = 8) : encode (decode bs) = bs := by
  have hlt : Bytes.toNatBE bs < UInt64.size := by
    have hbound := Bytes.toNatBE_lt bs
    rw [h] at hbound
    exact hbound
  rw [encode, decode, biased_ofBiased, UInt64.toNat_ofNat_of_lt' hlt, ← h, Bytes.ofNatBE_toNatBE]

namespace RankKey

/-- A key has a slash between count and tie-breaker. -/
def Made (k : RankKey) : Prop := k.separator = slash

instance (k : RankKey) : Decidable k.Made := inferInstanceAs (Decidable (_ = _))

theorem made_make (count : Int64) (tieBreaker : UInt64) (policy : TieBreak) :
    (make count tieBreaker policy).Made := rfl

theorem getD_encode (k : RankKey) : k.encode.getD 8 0 = k.separator := by
  have hcount : (Count.encode k.count).length = 8 := Bytes.length_ofNatBE 8 _
  simp [encode, List.getD, hcount]

/-- The seventeen bytes of a key determine it. -/
@[simp] theorem ofBytes_encode (k : RankKey) : ofBytes k.encode = k := by
  have hcount : (Count.encode k.count).length = 8 := Bytes.length_ofNatBE 8 _
  have htie : k.tie.toNat < Bytes.bound 8 := k.tie.toNat_lt
  have htake : k.encode.take 8 = Count.encode k.count := by
    rw [encode, ← hcount, List.take_left]
  have hdrop : k.encode.drop 9 = Bytes.ofNatBE 8 k.tie.toNat := by
    rw [encode, List.drop_append, hcount]
    simp [hcount]
  rw [ofBytes, htake, getD_encode, hdrop, Count.decode_encode, Bytes.toNatBE_ofNatBE htie]
  simp

/-- Seventeen bytes are those of the key they spell. -/
theorem encode_ofBytes {bs : Bytes} (h : bs.length = width) : (ofBytes bs).encode = bs := by
  rw [width] at h
  have hcount : (bs.take 8).length = 8 := by simp [h]
  have htie : (bs.drop 9).length = 8 := by simp [h]
  have hlt : Bytes.toNatBE (bs.drop 9) < UInt64.size := by
    have hbound := Bytes.toNatBE_lt (bs.drop 9)
    rw [htie] at hbound
    exact hbound
  have hdigits : Bytes.ofNatBE 8 (Bytes.toNatBE (bs.drop 9)) = bs.drop 9 := by
    have h := Bytes.ofNatBE_toNatBE (bs.drop 9)
    rwa [htie] at h
  have hslash : bs.drop 8 = bs.getD 8 0 :: bs.drop 9 := by
    rw [List.drop_eq_getElem_cons (by omega), List.getD, List.getElem?_eq_getElem (by omega),
      Option.getD_some]
  rw [encode, ofBytes, Count.encode_decode hcount, UInt64.toNat_ofNat_of_lt' hlt, hdigits,
    ← hslash, List.take_append_drop]

theorem encode_inj {a b : RankKey} (h : a.encode = b.encode) : a = b := by
  rw [← ofBytes_encode a, h, ofBytes_encode]

theorem codec_readsBack : codec.ReadsBack fun _ => True := by
  intro k _ rest
  have ht := Codec.take_append (length_encode k) rest
  simp only [codec, ht]
  exact congrArg (fun x => Except.ok (x, rest)) (ofBytes_encode k)

theorem codec_readsOnly : codec.ReadsOnly fun _ => True := by
  intro bs k rest h
  obtain ⟨⟨bytes, rest'⟩, htake, hpure⟩ := Codec.bind_eq_ok.mp h
  cases hpure
  obtain ⟨hlength, hbs⟩ := Codec.take_eq_ok htake
  exact ⟨trivial, by simp [hbs, codec, encode_ofBytes hlength]⟩

/-- A key with a slash in its place is read back on its own. -/
theorem decode_encode {k : RankKey} (h : k.Made) : decode k.encode = .ok k := by
  have hget : k.encode.getD 8 0 = slash := (getD_encode k).trans h
  simp only [decode, length_encode, Nat.lt_irrefl, if_false, ne_eq, not_true_eq_false, hget,
    ofBytes_encode]

/-- A key without one is not. -/
theorem decode_encode_of_not_made {k : RankKey} (h : ¬ k.Made) :
    decode k.encode = .error .missingSeparator := by
  have hget : k.encode.getD 8 0 ≠ slash := fun hs => h ((getD_encode k).symm.trans hs)
  simp only [decode, length_encode, Nat.lt_irrefl, if_false, ne_eq, not_true_eq_false, hget,
    not_false_eq_true, if_true]

/-- A key that was read on its own has a slash, and the bytes that were read. -/
theorem decode_eq_ok {bs : Bytes} {k : RankKey} (h : decode bs = .ok k) :
    k.Made ∧ k.encode = bs := by
  unfold decode at h
  split at h
  · cases h
  · split at h
    · cases h
    · rename_i hwidth
      split at h
      · cases h
      · rename_i hslash
        cases h
        exact ⟨Decidable.not_not.mp hslash, encode_ofBytes (Decidable.not_not.mp hwidth)⟩

end RankKey

/-! ## Node records -/

namespace Node

theorem body_readsBack : body.ReadsBack fun n => Codec.Fits n.payload := by
  have hkey : (Codec.option RankKey.codec).ReadsBack fun _ => True :=
    RankKey.codec_readsBack.option.mono fun _ _ _ _ => trivial
  apply Codec.ReadsBack.map
  · apply Codec.ReadsBack.mono
      (Codec.text_readsBack.pair (hkey.pair (hkey.pair Codec.u32_readsBack)))
    rintro fields ⟨n, hn, rfl⟩
    exact ⟨hn, trivial, trivial, trivial⟩
  · intro n _
    rfl

theorem body_readsOnly : body.ReadsOnly fun n => Codec.Fits n.payload := by
  have hkey := RankKey.codec_readsOnly.option
  apply (Codec.text_readsOnly.pair (hkey.pair (hkey.pair Codec.u32_readsOnly))).map
  rintro fields ⟨hfits, -⟩
  exact ⟨hfits, rfl⟩

/-- A body with its checksum in front is read as the body is. -/
theorem decode_sealed (content : Bytes) : decode (sealed content) = body.read content := by
  have hfront : (Bytes.ofNatBE 8 (Checksum.of content).toNat).length = 8 :=
    Bytes.length_ofNatBE 8 _
  have hsum : UInt64.ofNat (Bytes.toNatBE (Bytes.ofNatBE 8 (Checksum.of content).toNat)) =
      Checksum.of content := by
    rw [Bytes.toNatBE_ofNatBE (Checksum.of content).toNat_lt]
    exact UInt64.ofNat_toNat
  simp only [decode, sealed, Bytes.split?_append hfront, hsum, ne_eq, not_true_eq_false, if_false]

/-- Eight bytes that spell a checksum are those of the checksum. -/
theorem front_eq {front : Bytes} {sum : UInt64} (hlength : front.length = 8)
    (h : UInt64.ofNat (Bytes.toNatBE front) = sum) : front = Bytes.ofNatBE 8 sum.toNat := by
  have hlt : Bytes.toNatBE front < UInt64.size := by
    have hbound := Bytes.toNatBE_lt front
    rw [hlength] at hbound
    exact hbound
  have hfront := Bytes.ofNatBE_toNatBE front
  rw [hlength] at hfront
  rw [← h, UInt64.toNat_ofNat_of_lt' hlt, hfront]

/-- A record that is read is a body with its checksum in front. -/
theorem eq_sealed_of_decode {record : Bytes} {n : Node} (h : decode record = .ok n) :
    ∃ content, record = sealed content := by
  unfold decode at h
  split at h
  · cases h
  · rename_i front content hsplit
    dsimp only at h
    split at h
    · cases h
    · rename_i hsum
      obtain ⟨hlength, hrecord⟩ := Bytes.split?_eq_some hsplit
      exact ⟨content, by rw [hrecord, sealed, ← front_eq hlength (Decidable.not_not.mp hsum)]⟩

/-- A node is read back from its record. -/
theorem decode_encode {n : Node} (h : Codec.Fits n.payload) : decode n.encode = .ok n := by
  have hbody := body_readsBack n h []
  rw [List.append_nil] at hbody
  rw [encode, decode_sealed, Codec.read_eq_ok, hbody]

/-- A node that was read fits in its record, and its record is what was read. -/
theorem decode_eq_ok {record : Bytes} {n : Node} (h : decode record = .ok n) :
    Codec.Fits n.payload ∧ n.encode = record := by
  obtain ⟨content, rfl⟩ := eq_sealed_of_decode h
  rw [decode_sealed, Codec.read_eq_ok] at h
  obtain ⟨hfits, hcontent⟩ := body_readsOnly h
  rw [List.append_nil] at hcontent
  exact ⟨hfits, by rw [encode, hcontent]⟩

/-- A record is not empty. -/
theorem encode_ne_nil (n : Node) : n.encode ≠ [] := by
  intro h
  have hlen := congrArg List.length h
  simp [encode, sealed] at hlen

end Node

end Leaderboard
