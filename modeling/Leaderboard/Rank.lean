import Leaderboard.Codec.Basic

/-!
# Ranks

A *rank key* places an entity among the others of one tree.  It holds a count
and a tie-breaker, and it is written in seventeen bytes: the count with its sign
bit flipped, a separator, and the stored tie-breaker, each number with its most
significant byte first.

Keys are ordered by `RankKey.ordinal`, the number that the seventeen bytes
spell, so that the order of the keys is the order of their bytes.  Flipping the
sign bit puts negative counts below positive ones.

Which of two entities with equal counts ranks higher is a policy, `TieBreak`.
It decides how a tie-breaker is stored and does not appear in the key.
-/

namespace Leaderboard

/-! ## Tie-breaking -/

/-- How entities with equal counts are ordered against each other. -/
inductive TieBreak where
  /-- The entity with the smaller tie-breaker ranks higher. -/
  | olderFirst
  /-- The entity with the larger tie-breaker ranks higher. -/
  | newerFirst
deriving DecidableEq, Repr, Inhabited

namespace TieBreak

/-- The stored form of a tie-breaker.  The map is its own inverse. -/
def apply : TieBreak → UInt64 → UInt64
  | olderFirst, t => 0xFFFFFFFFFFFFFFFF - t
  | newerFirst, t => t

@[simp] theorem apply_apply (p : TieBreak) (t : UInt64) : p.apply (p.apply t) = t := by
  cases p
  · grind [apply]
  · rfl

/-- The policies in the order in which they are numbered. -/
def codec : Codec TieBreak := Codec.alternative [.olderFirst, .newerFirst]

end TieBreak

/-! ## Counts -/

namespace Count

/-- The highest bit of a word. -/
def signBit : UInt64 := 0x8000000000000000

/-- A count as a word whose unsigned order is the order of the counts. -/
def biased (c : Int64) : UInt64 := c.toUInt64 ^^^ signBit

/-- The count of a biased word. -/
def ofBiased (w : UInt64) : Int64 := (w ^^^ signBit).toInt64

/-- The eight bytes of a count. -/
def encode (c : Int64) : Bytes := Bytes.ofNatBE 8 (biased c).toNat

/-- The count that eight bytes spell. -/
def decode (bs : Bytes) : Int64 := ofBiased (UInt64.ofNat (Bytes.toNatBE bs))

@[simp] theorem ofBiased_biased (c : Int64) : ofBiased (biased c) = c := by
  rw [ofBiased, biased, UInt64.xor_assoc, UInt64.xor_self, UInt64.xor_zero]
  exact c.toInt64_toUInt64

@[simp] theorem biased_ofBiased (w : UInt64) : biased (ofBiased w) = w := by
  rw [ofBiased, biased, UInt64.toUInt64_toInt64, UInt64.xor_assoc, UInt64.xor_self,
    UInt64.xor_zero]

theorem decode_encode (c : Int64) : decode (encode c) = c := by
  have h : (biased c).toNat < Bytes.bound 8 := (biased c).toNat_lt
  simp [decode, encode, Bytes.toNatBE_ofNatBE h]

example : encode (-1) = [0x7f, 0xff, 0xff, 0xff, 0xff, 0xff, 0xff, 0xff] := by decide +kernel

end Count

/-! ## Rank keys -/

/-- The separator of every key that is made. -/
def RankKey.slash : UInt8 := 0x2f

/-- The address of a tree node: a count, and a tie-breaker in its stored form. -/
structure RankKey where
  /-- The count that ranks the entity. -/
  count : Int64
  /-- The byte between count and tie-breaker; every key that is made has a
  slash there, and only a damaged child pointer has another. -/
  separator : UInt8 := RankKey.slash
  /-- The tie-breaker as it is stored. -/
  tie : UInt64
deriving DecidableEq, Hashable, Repr

/-- A pointer to a node of the tree, or to none. -/
abbrev NodeRef := Option RankKey

namespace RankKey

/-- The number of bytes of a key. -/
def width : Nat := 17

/-- The number of rank keys. -/
def total : Nat := Bytes.bound width

/-- The key of an entity. -/
def make (count : Int64) (tieBreaker : UInt64) (policy : TieBreak) : RankKey :=
  { count, tie := policy.apply tieBreaker }

/-- The tie-breaker a key was made from, under the policy it was made with. -/
def tieBreaker (k : RankKey) (policy : TieBreak) : UInt64 := policy.apply k.tie

/-! ### Order -/

/-- The number that the bytes of the key spell. -/
def ordinal (k : RankKey) : Nat :=
  UInt64.size * (256 * (Count.biased k.count).toNat + k.separator.toNat) + k.tie.toNat

instance : Ord RankKey := ⟨fun a b => compare a.ordinal b.ordinal⟩

instance : LT RankKey := ⟨fun a b => a.ordinal < b.ordinal⟩

instance : LE RankKey := ⟨fun a b => a.ordinal ≤ b.ordinal⟩

instance (a b : RankKey) : Decidable (a < b) := inferInstanceAs (Decidable (a.ordinal < b.ordinal))

instance (a b : RankKey) : Decidable (a ≤ b) := inferInstanceAs (Decidable (a.ordinal ≤ b.ordinal))

theorem compare_eq (a b : RankKey) : compare a b = compare a.ordinal b.ordinal := rfl

theorem lt_iff {a b : RankKey} : a < b ↔ a.ordinal < b.ordinal := Iff.rfl

theorem le_iff {a b : RankKey} : a ≤ b ↔ a.ordinal ≤ b.ordinal := Iff.rfl

theorem ordinal_lt (k : RankKey) : k.ordinal < total := by
  have := (Count.biased k.count).toNat_lt
  have := k.separator.toNat_lt
  have := k.tie.toNat_lt
  simp only [ordinal, total, width, Bytes.bound, UInt64.size]
  omega

/-- A key is determined by its ordinal. -/
theorem ordinal_inj {a b : RankKey} : a.ordinal = b.ordinal ↔ a = b := by
  constructor
  · intro h
    obtain ⟨ca, sa, ta⟩ := a
    obtain ⟨cb, sb, tb⟩ := b
    simp only [ordinal, UInt64.size] at h
    have := (Count.biased ca).toNat_lt
    have := (Count.biased cb).toNat_lt
    have := sa.toNat_lt
    have := sb.toNat_lt
    have := ta.toNat_lt
    have := tb.toNat_lt
    have hc : Count.biased ca = Count.biased cb := UInt64.toNat_inj.mp (by omega)
    have hs : sa = sb := UInt8.toNat_inj.mp (by omega)
    have ht : ta = tb := UInt64.toNat_inj.mp (by omega)
    have hc' : ca = cb := by
      rw [← Count.ofBiased_biased ca, hc, Count.ofBiased_biased]
    rw [hc', hs, ht]
  · rintro rfl
    rfl

instance : Std.TransOrd RankKey :=
  inferInstanceAs (Std.TransCmp (compareOn ordinal))

instance : Std.LawfulEqOrd RankKey where
  eq_of_compare h := ordinal_inj.mp (Std.LawfulEqOrd.eq_of_compare h)

/-! ### Bytes -/

/-- The seventeen bytes of a key. -/
def encode (k : RankKey) : Bytes :=
  Count.encode k.count ++ k.separator :: Bytes.ofNatBE 8 k.tie.toNat

/-- The key that seventeen bytes spell, whatever the separator. -/
def ofBytes (bs : Bytes) : RankKey where
  count := Count.decode (bs.take 8)
  separator := bs.getD 8 0
  tie := UInt64.ofNat (Bytes.toNatBE (bs.drop 9))

@[simp] theorem length_encode (k : RankKey) : k.encode.length = width := by
  simp [encode, Count.encode, width]

/-- The key of a byte string: seventeen bytes with a slash in its place. -/
def decode (bs : Bytes) : Except FormatFault RankKey :=
  if bs.length < width then .error .truncated
  else if bs.length ≠ width then .error (.keyWidth bs.length)
  else if bs.getD 8 0 ≠ slash then .error .missingSeparator
  else .ok (ofBytes bs)

/-- A key inside a record is its seventeen bytes, and its separator is not
checked. -/
def codec : Codec RankKey where
  encode := encode
  decode bs := do
    let (bytes, rest) ← Codec.take width bs
    pure (ofBytes bytes, rest)

/-- A key is shown as its count and its stored tie-breaker. -/
def render (k : RankKey) : String := toString k.count.toInt ++ "/" ++ Hex.word k.tie

/-- The form of a key that names its kind. -/
def debug (k : RankKey) : String := "RankKey(" ++ k.render ++ ")"

/-- A pointer is shown as its key, or as a dash. -/
def renderRef : NodeRef → String
  | none => "-"
  | some k => k.render

example : (make 5 1 .olderFirst).encode =
    [0x80, 0, 0, 0, 0, 0, 0, 5, 0x2f, 0xff, 0xff, 0xff, 0xff, 0xff, 0xff, 0xff, 0xfe] := by
  decide +kernel

end RankKey

end Leaderboard
