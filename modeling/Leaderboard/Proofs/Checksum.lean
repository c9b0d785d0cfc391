import Leaderboard.Checksum

/-!
# Bursts

A checksum tells two byte strings of one length apart that differ within 64 consecutive
bits only, whatever comes before and after (`Checksum.write_ne_of_burst`).

Bit by bit, the register takes in a bit at its high end and shifts (`Checksum.feed`).  A
shift loses nothing, since the polynomial is odd (`Checksum.shift_inj`), so two registers
that are apart stay apart while both take in the same bits.  And up to 64 bits one after
the other come to the same as all of them at once before so many shifts
(`Checksum.foldl_feed`), so registers that were equal before them tell them apart.
-/

namespace Leaderboard

/-! ## Bits -/

/-- The bits of a byte, the most significant first. -/
def Bytes.bitsOf (b : UInt8) : List Bool := (List.range 8).map b.toBitVec.getMsbD

/-- The bits of a byte string, the most significant bit of each byte first. -/
def Bytes.bits (bs : Bytes) : List Bool := bs.flatMap bitsOf

/-- Two byte strings of one length differ, and only within some 64 consecutive bits. -/
structure Bytes.Burst (as bs : Bytes) : Prop where
  /-- They are as long as each other. -/
  length_eq : as.length = bs.length
  /-- They differ. -/
  ne : as ≠ bs
  /-- Some 64 bits hold all the differences. -/
  near : ∃ first, ∀ i, i < first ∨ first + 64 ≤ i → (bits as)[i]? = (bits bs)[i]?

namespace Bytes

@[simp] theorem length_bitsOf (b : UInt8) : (bitsOf b).length = 8 := by
  simp [bitsOf]

theorem bitsOf_inj {a b : UInt8} (h : bitsOf a = bitsOf b) : a = b := by
  refine UInt8.toBitVec_inj.mp (BitVec.eq_of_getMsbD_eq fun i hi => ?_)
  exact List.map_inj_left.mp h i (List.mem_range.mpr hi)

@[simp] theorem bits_nil : bits [] = [] := rfl

@[simp] theorem bits_cons (b : UInt8) (bs : Bytes) : bits (b :: bs) = bitsOf b ++ bits bs := rfl

theorem bits_append (as bs : Bytes) : bits (as ++ bs) = bits as ++ bits bs := List.flatMap_append

theorem length_bits (bs : Bytes) : (bits bs).length = 8 * bs.length := by
  induction bs with
  | nil => rfl
  | cons b bs ih =>
      rw [bits_cons, List.length_append, length_bitsOf, ih, List.length_cons]
      omega

theorem bits_inj {as bs : Bytes} (hlength : as.length = bs.length) (h : bits as = bits bs) :
    as = bs := by
  induction as generalizing bs with
  | nil => exact (List.eq_nil_of_length_eq_zero hlength.symm).symm
  | cons a as ih =>
      cases bs with
      | nil => cases hlength
      | cons b bs =>
          rw [bits_cons, bits_cons] at h
          obtain ⟨hfirst, hrest⟩ := List.append_inj h (by simp)
          rw [bitsOf_inj hfirst, ih (Nat.succ.inj hlength) hrest]

/-- Eight bytes have no more bits than a burst. -/
theorem Burst.of_short {as bs : Bytes} (hlength : as.length = bs.length) (hle : as.length ≤ 8)
    (hne : as ≠ bs) : Burst as bs := by
  refine ⟨hlength, hne, 0, fun i hi => ?_⟩
  have has := length_bits as
  have hbs := length_bits bs
  rw [List.getElem?_eq_none (by omega), List.getElem?_eq_none (by omega)]

/-- A burst lies between bits that are the same. -/
theorem Burst.exists_window {as bs : Bytes} (h : Burst as bs) :
    ∃ before window window' after, bits as = before ++ (window ++ after) ∧
      bits bs = before ++ (window' ++ after) ∧ window.length = window'.length ∧
      window.length ≤ 64 ∧ window ≠ window' := by
  obtain ⟨first, hnear⟩ := h.near
  have hcut : ∀ l : List Bool,
      l = l.take first ++ ((l.drop first).take 64 ++ l.drop (first + 64)) := by
    intro l
    rw [← List.drop_drop, List.take_append_drop, List.take_append_drop]
  have hbefore : (bits as).take first = (bits bs).take first := by
    refine List.ext_getElem? fun i => ?_
    rw [List.getElem?_take, List.getElem?_take]
    split
    · exact hnear i (.inl ‹_›)
    · rfl
  have hafter : (bits as).drop (first + 64) = (bits bs).drop (first + 64) := by
    refine List.ext_getElem? fun i => ?_
    rw [List.getElem?_drop, List.getElem?_drop]
    exact hnear _ (.inr (Nat.le_add_right ..))
  refine ⟨_, ((bits as).drop first).take 64, ((bits bs).drop first).take 64, _, hcut _, ?_, ?_, ?_,
    fun hsame => h.ne (bits_inj h.length_eq ?_)⟩
  · rw [hbefore, hafter]
    exact hcut _
  · simp [length_bits, h.length_eq]
  · exact List.length_take_le _ _
  · rw [hcut (bits as), hcut (bits bs), hbefore, hafter, hsame]

end Bytes

/-! ## The register bit by bit -/

namespace Checksum

theorem toBitVec_shift (r : UInt64) :
    (shift r).toBitVec =
      (r.toBitVec <<< 1) ^^^ (if r.toBitVec.msb then polynomial.toBitVec else 0) := by
  have hshift : (r >>> 63).toNat = r.toNat / 2 ^ 63 := by
    simp [UInt64.toNat_shiftRight, Nat.shiftRight_eq_div_pow]
  have hmsb : r >>> 63 = 1 ↔ r.toBitVec.msb = true := by
    rw [BitVec.msb_eq_decide, decide_eq_true_iff, ← UInt64.toNat_inj, hshift]
    have hlt := r.toNat_lt
    simp only [UInt64.toNat_one, UInt64.toNat_toBitVec]
    omega
  by_cases h : r >>> 63 = 1
  · simp [shift, h, hmsb.mp h]
  · simp [shift, h, mt hmsb.mpr h]

theorem getMsbD_polynomial : polynomial.toBitVec.getMsbD 63 = true := by decide

/-- A shift loses nothing: the polynomial is odd, so the low bit tells the one that fell out. -/
theorem shift_inj {r s : UInt64} (h : shift r = shift s) : r = s := by
  have hbits : ∀ i, (shift r).toBitVec.getMsbD i = (shift s).toBitVec.getMsbD i := by
    intro i
    rw [h]
  simp only [toBitVec_shift, BitVec.getMsbD_xor, BitVec.getMsbD_shiftLeft] at hbits
  have hmsb : r.toBitVec.msb = s.toBitVec.msb := by
    have hlow := hbits 63
    cases hr : r.toBitVec.msb <;> cases hs : s.toBitVec.msb <;>
      simp_all [getMsbD_polynomial, BitVec.getMsbD_of_ge]
  refine UInt64.toBitVec_inj.mp (BitVec.eq_of_getMsbD_eq fun i _ => ?_)
  cases i with
  | zero => rw [← BitVec.msb_eq_getMsbD_zero, ← BitVec.msb_eq_getMsbD_zero, hmsb]
  | succ i =>
      have hi := hbits i
      rw [hmsb] at hi
      exact Bool.xor_left_inj.mp hi

/-- A register with a bit at its high end. -/
def entering (bit : Bool) : UInt64 := ⟨if bit then .twoPow 64 63 else 0⟩

/-- The register after one more bit. -/
def feed (r : UInt64) (bit : Bool) : UInt64 := shift (r ^^^ entering bit)

/-- A register with some bits at its high end, the first one highest. -/
def place : List Bool → UInt64
  | [] => 0
  | bit :: bits => entering bit ^^^ (place bits >>> 1)

theorem getMsbD_entering (bit : Bool) (i : Nat) :
    (entering bit).toBitVec.getMsbD i = (decide (i = 0) && bit) := by
  cases bit <;> simp [entering]

theorem getMsbD_place (bits : List Bool) (i : Nat) :
    (place bits).toBitVec.getMsbD i = (decide (i < 64) && bits.getD i false) := by
  induction bits generalizing i with
  | nil => simp [place]
  | cons bit bits ih =>
      cases i with
      | zero => simp [place, getMsbD_entering]
      | succ i =>
          have hbound : i + 1 < 64 → i < 64 := by omega
          by_cases hi : i + 1 < 64 <;> simp [place, getMsbD_entering, ih, hi, hbound]

theorem shift_xor_ushiftRight {r s : UInt64} (h : s.toBitVec.getMsbD 63 = false) :
    shift (r ^^^ (s >>> 1)) = shift r ^^^ s := by
  have hmsb : (s >>> 1).toBitVec.msb = false := by
    simp [BitVec.msb_eq_getMsbD_zero]
  have hleft : (s >>> 1).toBitVec <<< 1 = s.toBitVec := by
    refine BitVec.eq_of_getMsbD_eq fun i hi => ?_
    rcases Nat.lt_or_ge (i + 1) 64 with hi' | hi'
    · simp [hi']
    · obtain rfl : i = 63 := by omega
      simp [h]
  refine UInt64.toBitVec_inj.mp ?_
  rw [toBitVec_shift, UInt64.toBitVec_xor, UInt64.toBitVec_xor, toBitVec_shift, BitVec.msb_xor,
    hmsb, Bool.xor_false, BitVec.shiftLeft_xor_distrib, hleft, BitVec.xor_assoc, BitVec.xor_assoc,
    BitVec.xor_comm s.toBitVec]

theorem foldl_feed (r : UInt64) {bits : List Bool} (h : bits.length ≤ 64) :
    bits.foldl feed r = shiftBy bits.length (r ^^^ place bits) := by
  induction bits generalizing r with
  | nil => simp [place, shiftBy]
  | cons bit bits ih =>
      rw [List.length_cons] at h
      have hlow : (place bits).toBitVec.getMsbD 63 = false := by
        simp [getMsbD_place, List.getElem?_eq_none (show bits.length ≤ 63 by omega)]
      rw [List.foldl_cons, ih _ (by omega), List.length_cons, shiftBy, place, ← UInt64.xor_assoc,
        shift_xor_ushiftRight hlow]
      rfl

theorem step_eq_feed (r : UInt64) (b : UInt8) : step r b = (Bytes.bitsOf b).foldl feed r := by
  have hplace : place (Bytes.bitsOf b) = b.toUInt64 <<< 56 := by
    refine UInt64.toBitVec_inj.mp (BitVec.eq_of_getMsbD_eq fun i hi => ?_)
    rw [getMsbD_place]
    rcases Nat.lt_or_ge i 8 with hbyte | hbyte
    · simp [Bytes.bitsOf, hi, hbyte]
    · simp [Bytes.bitsOf, hbyte, BitVec.getMsbD_of_ge]
  rw [foldl_feed r (by simp), hplace, Bytes.length_bitsOf]
  rfl

theorem write_eq_feed (c : Checksum) (bs : Bytes) :
    (c.write bs).register = (Bytes.bits bs).foldl feed c.register := by
  induction bs generalizing c with
  | nil => rfl
  | cons b bs ih =>
      rw [Bytes.bits_cons, List.foldl_append, ← step_eq_feed]
      exact ih ⟨step c.register b⟩

/-! ## Registers apart -/

theorem feed_inj {r s : UInt64} {bit : Bool} (h : feed r bit = feed s bit) : r = s :=
  (UInt64.xor_left_inj _).mp (shift_inj h)

/-- Registers that are apart stay apart while they take in the same bits. -/
theorem foldl_feed_inj {r s : UInt64} {bits : List Bool}
    (h : bits.foldl feed r = bits.foldl feed s) : r = s := by
  induction bits generalizing r s with
  | nil => exact h
  | cons bit bits ih => exact feed_inj (ih h)

theorem shiftBy_inj {n : Nat} {r s : UInt64} (h : shiftBy n r = shiftBy n s) : r = s := by
  induction n generalizing r s with
  | zero => exact h
  | succ n ih => exact shift_inj (ih h)

theorem place_inj {bits bits' : List Bool} (hlength : bits.length = bits'.length)
    (hle : bits.length ≤ 64) (h : place bits = place bits') : bits = bits' := by
  refine List.ext_getElem hlength fun i hi hi' => ?_
  have hbit : (place bits).toBitVec.getMsbD i = (place bits').toBitVec.getMsbD i := by rw [h]
  simpa [getMsbD_place, hi, hi', show i < 64 by omega] using hbit

/-- The same register tells up to 64 bits apart. -/
theorem foldl_feed_window {r : UInt64} {bits bits' : List Bool}
    (hlength : bits.length = bits'.length) (hle : bits.length ≤ 64)
    (h : bits.foldl feed r = bits'.foldl feed r) : bits = bits' := by
  rw [foldl_feed r hle, foldl_feed r (hlength ▸ hle), ← hlength] at h
  exact place_inj hlength hle ((UInt64.xor_right_inj _).mp (shiftBy_inj h))

/-- A checksum tells byte strings apart that differ within 64 consecutive bits only. -/
theorem write_ne_of_burst {as bs : Bytes} (h : Bytes.Burst as bs) (c : Checksum) :
    c.write as ≠ c.write bs := by
  obtain ⟨before, window, window', after, has, hbs, hlength, hle, hne⟩ := h.exists_window
  intro hsame
  have hregister := congrArg register hsame
  rw [write_eq_feed, write_eq_feed, has, hbs, List.foldl_append, List.foldl_append,
    List.foldl_append, List.foldl_append] at hregister
  exact hne (foldl_feed_window hlength hle (foldl_feed_inj hregister))

theorem of_ne_of_burst {as bs : Bytes} (h : Bytes.Burst as bs) : of as ≠ of bs :=
  fun hsame => write_ne_of_burst h initial (congrArg mk hsame)

end Checksum

end Leaderboard
