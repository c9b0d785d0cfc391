/-!
# Byte strings

Store keys, store values and log files are lists of bytes.  This module writes
and reads numbers of a fixed width in them, in both byte orders, and text in
UTF-8.

A number is written from its low end: `ofNatLE w n` is the `w` lowest bytes of
`n`, least significant first, and `ofNatBE` is its reverse.  `toNatLE_ofNatLE`
and `ofNatLE_toNatLE` say that reading and writing undo each other, the first
for numbers that fit and the second for every byte string.
-/

namespace Leaderboard

/-- A byte string. -/
abbrev Bytes := List UInt8

namespace Bytes

/-! ## Numbers of a fixed width -/

/-- The `w` lowest bytes of a number, least significant first. -/
def ofNatLE : Nat → Nat → Bytes
  | 0, _ => []
  | w + 1, n => UInt8.ofNat n :: ofNatLE w (n / 256)

/-- The `w` lowest bytes of a number, most significant first. -/
def ofNatBE (w n : Nat) : Bytes := (ofNatLE w n).reverse

/-- The number whose least significant byte comes first. -/
def toNatLE : Bytes → Nat
  | [] => 0
  | b :: bs => b.toNat + 256 * toNatLE bs

/-- The number whose most significant byte comes first. -/
def toNatBE (bs : Bytes) : Nat := toNatLE bs.reverse

/-- The number of byte strings of width `w`: the numbers below it fit in `w` bytes. -/
def bound : Nat → Nat
  | 0 => 1
  | w + 1 => 256 * bound w

@[simp] theorem length_ofNatLE (w n : Nat) : (ofNatLE w n).length = w := by
  induction w generalizing n with
  | zero => rfl
  | succ w ih => simp [ofNatLE, ih]

@[simp] theorem length_ofNatBE (w n : Nat) : (ofNatBE w n).length = w := by
  simp [ofNatBE]

theorem toNatLE_lt (bs : Bytes) : toNatLE bs < bound bs.length := by
  induction bs with
  | nil => exact Nat.zero_lt_one
  | cons b bs ih =>
      have hb := b.toNat_lt
      simp only [toNatLE, List.length_cons, bound]
      omega

theorem toNatBE_lt (bs : Bytes) : toNatBE bs < bound bs.length := by
  simpa [toNatBE] using toNatLE_lt bs.reverse

/-- A number that fits in `w` bytes is read back. -/
theorem toNatLE_ofNatLE {w n : Nat} (h : n < bound w) : toNatLE (ofNatLE w n) = n := by
  induction w generalizing n with
  | zero =>
      simp only [bound] at h
      simp only [ofNatLE, toNatLE]
      omega
  | succ w ih =>
      have hd : n / 256 < bound w := by
        simp only [bound] at h
        omega
      simp only [ofNatLE, toNatLE, ih hd, UInt8.toNat_ofNat']
      omega

theorem toNatBE_ofNatBE {w n : Nat} (h : n < bound w) : toNatBE (ofNatBE w n) = n := by
  simp [toNatBE, ofNatBE, toNatLE_ofNatLE h]

theorem ofNatBE_inj {w m n : Nat} (hm : m < bound w) (hn : n < bound w)
    (h : ofNatBE w m = ofNatBE w n) : m = n := by
  rw [← toNatBE_ofNatBE hm, h, toNatBE_ofNatBE hn]

/-- Every byte string is the writing of the number it holds. -/
theorem ofNatLE_toNatLE (bs : Bytes) : ofNatLE bs.length (toNatLE bs) = bs := by
  induction bs with
  | nil => rfl
  | cons b bs ih =>
      have hb := b.toNat_lt
      have hlow : UInt8.ofNat (b.toNat + 256 * toNatLE bs) = b := by
        apply UInt8.toNat_inj.mp
        simp only [UInt8.toNat_ofNat']
        omega
      have hhigh : (b.toNat + 256 * toNatLE bs) / 256 = toNatLE bs := by omega
      simp only [List.length_cons, toNatLE, ofNatLE, hlow, hhigh, ih]

theorem ofNatBE_toNatBE (bs : Bytes) : ofNatBE bs.length (toNatBE bs) = bs := by
  have h := ofNatLE_toNatLE bs.reverse
  rw [List.length_reverse] at h
  rw [ofNatBE, toNatBE, h, List.reverse_reverse]

/-! ## Text -/

/-- The UTF-8 bytes of a text. -/
def ofString (s : String) : Bytes := s.toByteArray.data.toList

/-- The text a byte string spells in UTF-8, if it is well formed. -/
def toString? (bs : Bytes) : Option String := String.fromUTF8? ⟨bs.toArray⟩

@[simp] theorem toString?_ofString (s : String) : toString? (ofString s) = some s := by
  have h : (⟨(ofString s).toArray⟩ : ByteArray) = s.toByteArray := by
    simp [ofString]
  rw [toString?, h, String.fromUTF8?, dif_pos s.isValidUTF8]
  rfl

theorem ofString_of_toString? {bs : Bytes} {s : String} (h : toString? bs = some s) :
    ofString s = bs := by
  simp only [toString?, String.fromUTF8?, Option.dite_none_right_eq_some,
    Option.some.injEq] at h
  obtain ⟨hv, rfl⟩ := h
  simp [ofString, String.fromUTF8]

/-! ## Cutting -/

/-- The first `n` bytes and the rest, if there are that many. -/
def split? (n : Nat) (bs : Bytes) : Option (Bytes × Bytes) :=
  if n ≤ bs.length then some (bs.take n, bs.drop n) else none

theorem split?_append {n : Nat} {a b : Bytes} (h : a.length = n) :
    split? n (a ++ b) = some (a, b) := by
  subst h
  simp [split?]

theorem split?_eq_some {n : Nat} {bs a b : Bytes} (h : split? n bs = some (a, b)) :
    a.length = n ∧ bs = a ++ b := by
  simp only [split?, Option.ite_none_right_eq_some, Option.some.injEq, Prod.mk.injEq] at h
  obtain ⟨hn, rfl, rfl⟩ := h
  simp [hn]

end Bytes

end Leaderboard
