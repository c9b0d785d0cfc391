import Leaderboard.Proofs.Codec.RoundTrip

/-!
# The order of ranks

A rank is a count with the tie-breaker of its caller.  Under a policy one rank
stands above another if its count is higher, or if the counts are equal and the
policy prefers its tie-breaker (`TieBreak.compareRanks`).

The keys of ranks are ordered the other way round, the highest rank last
(`TieBreak.compareRanks_eq`): flipping the sign bit makes the signed order of
counts an unsigned one (`Count.biased_toNat`), and the stored form of a
tie-breaker is larger where the policy prefers it.
-/

namespace Leaderboard

/-- A count and a tie-breaker as a caller gives them. -/
abbrev Rank := Int64 × UInt64

namespace Count

/-- The biased word is the count with the least count taken off. -/
theorem biased_toNat (c : Int64) :
    ((biased c).toNat : Int) = c.toInt - Int64.minValue.toInt := by
  have hmin : Int64.minValue.toInt = -9223372036854775808 := rfl
  have hlt := c.toUInt64.toNat_lt
  have hxor : (biased c).toNat = c.toUInt64.toNat ^^^ 2 ^ 63 := by
    rw [biased, UInt64.toNat_xor]
    rfl
  have hdiv : (biased c).toNat / 2 ^ 63 = c.toUInt64.toNat / 2 ^ 63 ^^^ 1 := by
    rw [hxor, Nat.xor_div_two_pow, Nat.div_self (Nat.two_pow_pos 63)]
  have hmod : (biased c).toNat % 2 ^ 63 = c.toUInt64.toNat % 2 ^ 63 := by
    rw [hxor, Nat.xor_mod_two_pow]
    simp
  have hint : c.toInt = if 2 * c.toUInt64.toNat < 2 ^ 64 then (c.toUInt64.toNat : Int)
      else (c.toUInt64.toNat : Int) - (2 ^ 64 : Nat) :=
    BitVec.toInt_eq_toNat_cond _
  rcases Nat.lt_or_ge c.toUInt64.toNat (2 ^ 63) with h | h
  · have hzero : c.toUInt64.toNat / 2 ^ 63 = 0 := Nat.div_eq_of_lt h
    rw [hzero, Nat.zero_xor] at hdiv
    rw [if_pos (by omega)] at hint
    omega
  · have hone : c.toUInt64.toNat / 2 ^ 63 = 1 := by omega
    rw [hone, Nat.xor_self] at hdiv
    rw [if_neg (by omega)] at hint
    omega

/-- Biased words are ordered as their counts. -/
theorem compare_biased (a b : Int64) :
    compare (biased a).toNat (biased b).toNat = compare a b := by
  have ha := biased_toNat a
  have hb := biased_toNat b
  have hlt : (biased a).toNat < (biased b).toNat ↔ a < b := by
    rw [Int64.lt_iff_toInt_lt]
    omega
  have heq : (biased a).toNat = (biased b).toNat ↔ a = b := by
    rw [← Int64.toInt_inj]
    omega
  show compareOfLessAndEq (biased a).toNat (biased b).toNat = compareOfLessAndEq a b
  simp only [compareOfLessAndEq, hlt, heq]

end Count

/-- Numbers of two digits are ordered by the first digit and then by the second. -/
theorem compare_digits {m x y u v : Nat} (hu : u < m) (hv : v < m) :
    compare (m * x + u) (m * y + v) = (compare x y).then (compare u v) := by
  rcases Nat.lt_trichotomy x y with h | rfl | h
  · have hmul : m * (x + 1) ≤ m * y := Nat.mul_le_mul_left m h
    rw [Nat.mul_succ] at hmul
    rw [Nat.compare_eq_lt.mpr h, Nat.compare_eq_lt.mpr (by omega)]
    rfl
  · rw [Nat.compare_eq_eq.mpr rfl, Ordering.eq_then]
    rcases Nat.lt_trichotomy u v with h | rfl | h
    · rw [Nat.compare_eq_lt.mpr h, Nat.compare_eq_lt.mpr (by omega)]
    · rw [Nat.compare_eq_eq.mpr rfl, Nat.compare_eq_eq.mpr rfl]
    · rw [Nat.compare_eq_gt.mpr h, Nat.compare_eq_gt.mpr (by omega)]
  · have hmul : m * (y + 1) ≤ m * x := Nat.mul_le_mul_left m h
    rw [Nat.mul_succ] at hmul
    rw [Nat.compare_eq_gt.mpr h, Nat.compare_eq_gt.mpr (by omega)]
    rfl

/-- Keys are ordered by their counts, then by their separators, then by their stored
tie-breakers. -/
theorem RankKey.compare_fields (a b : RankKey) :
    compare a b =
      ((compare a.count b.count).then (compare a.separator.toNat b.separator.toNat)).then
        (compare a.tie.toNat b.tie.toNat) := by
  rw [compare_eq, ordinal, ordinal, compare_digits a.tie.toNat_lt b.tie.toNat_lt,
    compare_digits a.separator.toNat_lt b.separator.toNat_lt, Count.compare_biased]

namespace TieBreak

variable {p : TieBreak}

/-- The key of a rank. -/
def key (p : TieBreak) (r : Rank) : RankKey := .make r.1 r.2 p

/-- The order of ranks, the highest first. -/
def compareRanks (p : TieBreak) (a b : Rank) : Ordering :=
  (compare b.1 a.1).then <|
    match p with
    | .olderFirst => compare a.2 b.2
    | .newerFirst => compare b.2 a.2

/-- The place of a tie-breaker among those of one count, counted from the lowest. -/
def place : TieBreak → UInt64 → Nat
  | olderFirst, t => UInt64.size - 1 - t.toNat
  | newerFirst, t => t.toNat

/-- A tie-breaker is stored as its place. -/
theorem toNat_apply (p : TieBreak) (t : UInt64) : (p.apply t).toNat = p.place t := by
  cases p with
  | olderFirst =>
      have ht : t ≤ 0xFFFFFFFFFFFFFFFF := by
        rw [UInt64.le_iff_toNat_le]
        exact Nat.le_of_lt_succ t.toNat_lt
      rw [apply, UInt64.toNat_sub_of_le _ _ ht]
      rfl
  | newerFirst => rfl

/-- The stored form of a tie-breaker is larger where the policy prefers it. -/
theorem compare_apply (s t : UInt64) :
    compare (p.apply t).toNat (p.apply s).toNat =
      match p with
      | .olderFirst => compare s t
      | .newerFirst => compare t s := by
  rw [toNat_apply, toNat_apply]
  cases p with
  | olderFirst =>
      rw [place, place]
      have hs := s.toNat_lt_size
      have ht := t.toNat_lt_size
      have hlt : UInt64.size - 1 - t.toNat < UInt64.size - 1 - s.toNat ↔ s < t := by
        rw [UInt64.lt_iff_toNat_lt]
        omega
      have heq : UInt64.size - 1 - t.toNat = UInt64.size - 1 - s.toNat ↔ s = t := by
        rw [← UInt64.toNat_inj]
        omega
      show compareOfLessAndEq _ _ = compareOfLessAndEq s t
      simp only [compareOfLessAndEq, hlt, heq]
  | newerFirst =>
      show compareOfLessAndEq t.toNat s.toNat = compareOfLessAndEq t s
      simp only [compareOfLessAndEq, UInt64.lt_iff_toNat_lt, UInt64.toNat_inj]

/-- Keys are ordered against their ranks: the highest rank has the last key. -/
theorem compareRanks_eq (a b : Rank) : p.compareRanks a b = compare (p.key b) (p.key a) := by
  unfold compareRanks
  rw [← compare_apply, RankKey.compare_fields]
  simp [key, RankKey.make]

theorem key_inj {a b : Rank} : p.key a = p.key b ↔ a = b := by
  constructor
  · intro h
    have hcount : a.1 = b.1 := congrArg RankKey.count h
    have htie := congrArg (fun k => p.apply k.tie) h
    simp only [key, RankKey.make, apply_apply] at htie
    exact Prod.ext hcount htie
  · rintro rfl
    rfl

theorem made_key (r : Rank) : (p.key r).Made := RankKey.made_make ..

instance : Std.TransCmp p.compareRanks := by
  have h : p.compareRanks = fun a b => compareOn p.key b a := by
    funext a b
    rw [compareRanks_eq, compareOn]
  have hkey : Std.TransCmp (compareOn p.key) := inferInstance
  rw [h]
  exact Std.TransCmp.opposite

instance : Std.LawfulEqCmp p.compareRanks where
  eq_of_compare h := by
    rw [compareRanks_eq] at h
    exact (key_inj.mp (Std.LawfulEqOrd.eq_of_compare h)).symm

end TieBreak

end Leaderboard
