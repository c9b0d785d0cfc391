import Leaderboard.Proofs.Codec.RoundTrip
import Leaderboard.Record.Address

/-!
# The records of a tree

Within a tree the pointer to the root, the nodes and the ranks of entities have
store keys that begin alike and go on differently: the byte after the slash
tells the kind, and what follows the mark of a kind tells the record.

The store keys of a tree begin with its name and a slash (`TreeName.Owns`).  No byte of
the name is a slash, so a store key belongs to one tree at most (`TreeName.Owns.unique`),
whatever follows the slash.
-/

namespace Leaderboard

theorem Bytes.ofString_inj {a b : String} (h : Bytes.ofString a = Bytes.ofString b) : a = b := by
  have hb := congrArg Bytes.toString? h
  simpa using hb

/-- No character but the slash has a slash among its bytes. -/
theorem Bytes.slash_mem_utf8EncodeChar {c : Char}
    (h : Address.slash ∈ String.utf8EncodeChar c) : c = '/' := by
  have hofNat : ∀ n : Nat, Address.slash = UInt8.ofNat n ↔ n % 256 = 47 := by
    intro n
    rw [← UInt8.toNat_inj, UInt8.toNat_ofNat']
    exact eq_comm
  have hval : c.val.toNat = 47 := by
    simp only [String.utf8EncodeChar] at h
    -- a longer character has no byte below 128
    repeat' split at h
    all_goals
      simp only [List.mem_cons, List.not_mem_nil, or_false, hofNat] at h
      omega
  exact Char.ext (UInt32.toNat_inj.mp hval)

theorem Bytes.ofString_eq_flatMap (s : String) :
    ofString s = s.toList.flatMap String.utf8EncodeChar := by
  rw [ofString, ← String.utf8Encode_toList, List.utf8Encode]
  simp

/-- A text has a slash if there is one among its bytes. -/
theorem Bytes.slash_mem_ofString {s : String} :
    Address.slash ∈ Bytes.ofString s ↔ '/' ∈ s.toList := by
  rw [ofString_eq_flatMap, List.mem_flatMap]
  constructor
  · rintro ⟨c, hc, hslash⟩
    exact slash_mem_utf8EncodeChar hslash ▸ hc
  · exact fun hslash => ⟨'/', hslash, by decide⟩

namespace TreeName

/-- A name is told by its text. -/
theorem eq_of_text {t u : TreeName} (h : t.text = u.text) : t = u := by
  cases t
  cases u
  cases h
  rfl

variable (t : TreeName)

/-- Two nodes have two store keys. -/
theorem nodeKey_inj {a b : RankKey} : t.nodeKey a = t.nodeKey b ↔ a = b := by
  constructor
  · intro h
    have hend := (List.cons.inj (List.append_cancel_left h)).2
    exact RankKey.encode_inj (List.append_cancel_left hend)
  · rintro rfl
    rfl

/-- Two entities have two store keys. -/
theorem entityKey_inj {a b : String} : t.entityKey a = t.entityKey b ↔ a = b := by
  constructor
  · intro h
    have hend := (List.cons.inj (List.append_cancel_left h)).2
    exact Bytes.ofString_inj (List.append_cancel_left hend)
  · rintro rfl
    rfl

theorem nodeKey_ne_rootKey (k : RankKey) : t.nodeKey k ≠ t.rootKey := by
  intro h
  have hend := (List.cons.inj (List.append_cancel_left h)).2
  cases hend

theorem entityKey_ne_rootKey (e : String) : t.entityKey e ≠ t.rootKey := by
  intro h
  have hend := (List.cons.inj (List.append_cancel_left h)).2
  cases hend

theorem entityKey_ne_nodeKey (e : String) (k : RankKey) : t.entityKey e ≠ t.nodeKey k := by
  intro h
  have hend := (List.cons.inj (List.append_cancel_left h)).2
  cases hend

/-! ## The records of different trees -/

/-- A store key begins with the name of the tree and a slash. -/
def Owns (key : Bytes) : Prop := Bytes.ofString t.text ++ [Address.slash] <+: key

theorem owns_rootKey : t.Owns t.rootKey := ⟨_, List.append_assoc ..⟩

theorem owns_nodeKey (k : RankKey) : t.Owns (t.nodeKey k) := ⟨_, List.append_assoc ..⟩

theorem owns_entityKey (e : String) : t.Owns (t.entityKey e) := ⟨_, List.append_assoc ..⟩

variable {t}

theorem Owns.takeWhile {key : Bytes} (h : t.Owns key) :
    key.takeWhile (· ≠ Address.slash) = Bytes.ofString t.text := by
  obtain ⟨rest, rfl⟩ := h
  have hname : ∀ b ∈ Bytes.ofString t.text, decide (b ≠ Address.slash) := by
    intro b hb
    refine decide_eq_true fun heq => t.noSlash (Bytes.slash_mem_ofString.mp ?_)
    exact heq ▸ hb
  rw [List.append_assoc, List.takeWhile_append_of_pos hname]
  simp

/-- A store key begins with the name of one tree at most. -/
theorem Owns.unique {u : TreeName} {key : Bytes} (ht : t.Owns key) (hu : u.Owns key) : t = u :=
  eq_of_text (Bytes.ofString_inj (ht.takeWhile.symm.trans hu.takeWhile))

end TreeName

end Leaderboard
