import Leaderboard.Proofs.Ranking.Order

/-!
# Ranks in bytes

A store knows a rank key as seventeen bytes, and it compares them one by one.  Byte
strings of one length are ordered as the numbers that they spell
(`Bytes.compare_of_length`), and a key is ordered as the number that its bytes spell
(`RankKey.toNatBE_encode`).  So the order of the bytes is the order of the keys
(`RankKey.compare_encode`), and with it that of the ranks (`keys_order_as_ranks`).

Every key with its separator is the key of one rank, whatever the policy
(`RankKey.make_tieBreaker`), because the stored form of a tie-breaker is read back by
storing it again.
-/

namespace Leaderboard

/-! ## Numbers in bytes -/

namespace Bytes

theorem toNatLE_append (xs ys : Bytes) :
    toNatLE (xs ++ ys) = toNatLE xs + bound xs.length * toNatLE ys := by
  induction xs with
  | nil => simp [toNatLE, bound]
  | cons x xs ih =>
      simp [toNatLE, bound, ih, Nat.mul_add, Nat.mul_assoc, Nat.add_assoc]

theorem toNatBE_append (xs ys : Bytes) :
    toNatBE (xs ++ ys) = bound ys.length * toNatBE xs + toNatBE ys := by
  simp [toNatBE, toNatLE_append, Nat.add_comm]

theorem toNatBE_cons (b : UInt8) (bs : Bytes) :
    toNatBE (b :: bs) = bound bs.length * b.toNat + toNatBE bs := by
  have hsingle : toNatBE [b] = b.toNat := by simp [toNatBE, toNatLE]
  rw [← List.singleton_append, toNatBE_append, hsingle]

theorem compare_toNat (a b : UInt8) : compare a b = compare a.toNat b.toNat := by
  show compareOfLessAndEq a b = compareOfLessAndEq a.toNat b.toNat
  simp only [compareOfLessAndEq, UInt8.lt_iff_toNat_lt, UInt8.toNat_inj]

/-- Byte strings of one length are ordered as the numbers they spell. -/
theorem compare_of_length {as bs : Bytes} (h : as.length = bs.length) :
    compare as bs = compare (toNatBE as) (toNatBE bs) := by
  induction as generalizing bs with
  | nil =>
      have hbs : bs = [] := List.eq_nil_of_length_eq_zero h.symm
      simp [hbs]
  | cons a as ih =>
      cases bs with
      | nil => cases h
      | cons b bs =>
          have hlength : as.length = bs.length := Nat.succ.inj h
          have hrest := toNatBE_lt as
          rw [hlength] at hrest
          rw [List.compare_cons_cons, toNatBE_cons, toNatBE_cons, hlength,
            compare_digits hrest (toNatBE_lt bs), compare_toNat, ih hlength]

end Bytes

/-! ## Keys in bytes -/

namespace RankKey

/-- A key is ordered by the number that its bytes spell. -/
theorem toNatBE_encode (k : RankKey) : Bytes.toNatBE k.encode = k.ordinal := by
  have hcount : (Count.biased k.count).toNat < Bytes.bound 8 := (Count.biased k.count).toNat_lt
  have htie : k.tie.toNat < Bytes.bound 8 := k.tie.toNat_lt
  rw [encode, Count.encode, Bytes.toNatBE_append, Bytes.toNatBE_cons, List.length_cons,
    Bytes.length_ofNatBE, Bytes.toNatBE_ofNatBE hcount, Bytes.toNatBE_ofNatBE htie, ordinal]
  simp only [Bytes.bound, UInt64.size]
  omega

/-- Keys are ordered as their bytes. -/
theorem compare_encode (a b : RankKey) : compare a.encode b.encode = compare a b := by
  rw [Bytes.compare_of_length (by simp), toNatBE_encode, toNatBE_encode, compare_eq]

/-- A key with its separator is that of its count and the tie-breaker read from it. -/
theorem make_tieBreaker {k : RankKey} (h : k.Made) (p : TieBreak) :
    make k.count (k.tieBreaker p) p = k := by
  obtain ⟨count, separator, tie⟩ := k
  have hslash : separator = slash := h
  simp [make, tieBreaker, hslash]

/-- The bytes of two keys are ordered by the counts, and at equal counts by the places of the
tie-breakers. -/
theorem compare_encode_make (p : TieBreak) (c₁ c₂ : Int64) (t₁ t₂ : UInt64) :
    compare (make c₁ t₁ p).encode (make c₂ t₂ p).encode =
      (compare c₁.toInt c₂.toInt).then (compare (p.place t₁) (p.place t₂)) := by
  have hcount : compare c₁ c₂ = compare c₁.toInt c₂.toInt := by
    show compareOfLessAndEq c₁ c₂ = compareOfLessAndEq c₁.toInt c₂.toInt
    simp only [compareOfLessAndEq, Int64.lt_iff_toInt_lt, Int64.toInt_inj]
  rw [compare_encode, compare_fields, ← hcount, ← p.toNat_apply t₁, ← p.toNat_apply t₂]
  simp [make]

/-- The byte strings that are read as keys are those of the ranks under any policy. -/
theorem decode_eq_ok_iff (p : TieBreak) (bs : Bytes) (k : RankKey) :
    decode bs = .ok k ↔ ∃ c t, bs = (make c t p).encode ∧ k = make c t p := by
  constructor
  · intro h
    obtain ⟨hmade, hbytes⟩ := decode_eq_ok h
    have hmake := make_tieBreaker hmade p
    exact ⟨k.count, k.tieBreaker p, by rw [hmake, hbytes], hmake.symm⟩
  · rintro ⟨c, t, rfl, rfl⟩
    exact decode_encode (made_make c t p)

end RankKey

/-- Keys are ordered as their bytes, and the bytes of two keys as their ranks: by the signed
counts, and at equal counts by the places of the tie-breakers.  Count and tie-breaker are read
back from the bytes, and the byte strings that are read as keys are those of the ranks. -/
theorem keys_order_as_ranks :
    (∀ a b : RankKey, compare a b = compare a.encode b.encode) ∧
    (∀ (p : TieBreak) (c₁ c₂ : Int64) (t₁ t₂ : UInt64),
      compare (RankKey.make c₁ t₁ p).encode (RankKey.make c₂ t₂ p).encode =
        (compare c₁.toInt c₂.toInt).then (compare (p.place t₁) (p.place t₂))) ∧
    (∀ (p : TieBreak) (c : Int64) (t : UInt64),
      (RankKey.ofBytes (RankKey.make c t p).encode).count = c ∧
        (RankKey.ofBytes (RankKey.make c t p).encode).tieBreaker p = t) ∧
    ∀ (p : TieBreak) (bs : Bytes) (k : RankKey),
      RankKey.decode bs = .ok k ↔
        ∃ c t, bs = (RankKey.make c t p).encode ∧ k = RankKey.make c t p := by
  refine ⟨fun a b => (RankKey.compare_encode a b).symm, RankKey.compare_encode_make, ?_,
    RankKey.decode_eq_ok_iff⟩
  intro p c t
  simp [RankKey.make, RankKey.tieBreaker]

end Leaderboard
