import Leaderboard.Proofs.Tree.Audit
import Leaderboard.Proofs.Tree.Search
import Leaderboard.Proofs.Tree.Update
import Leaderboard.Proofs.Tree.Walk

/-!
# Trees as maps

`Tree.Models` says that the contents of a store hold a tree with the entries of a
map from rank keys to payloads.  Every operation of a tree then answers as the map
does, and a `Change` leaves contents that model the changed map
(`Change.serve_models`).

The keys of the map are required to be `RankKey.Made`, so that a pointer to any of
them can be read back, whichever of them comes to be the root.
-/

namespace Leaderboard

/-- The tree of a name. -/
def TreeName.tree (name : TreeName) (tombstones : Bool) : Tree := { name, tombstones }

theorem TreeName.t_ne_nil : "t".toList ≠ [] := by decide

theorem TreeName.slash_notMem_t : '/' ∉ "t".toList := by decide

/-- A name of one letter, for trees that are looked at one by one. -/
def TreeName.t : TreeName := ⟨"t", t_ne_nil, slash_notMem_t⟩

/-- The tree of this name, with tombstones. -/
def Tree.sample : Tree := TreeName.t.tree true

/-- A key of a count, for such trees. -/
def RankKey.ofCount (count : Int64) : RankKey := .make count 0 .newerFirst

/-- A key of a count with another byte in the place of the separator. -/
def RankKey.crooked (count : Int64) : RankKey := { count, separator := 0x30, tie := 0 }

theorem RankKey.not_made_crooked (count : Int64) : ¬ (crooked count).Made :=
  show (0x30 : UInt8) ≠ slash by decide

theorem TreeName.maxHeight_le_reach (name : TreeName) (tombstones : Bool) :
    Avl.maxHeight ≤ (name.tree tombstones).reach :=
  show Avl.maxHeight ≤ UInt64.size by decide

/-- A sorted map of payloads. -/
abbrev Placements := Std.TreeMap RankKey String

namespace Avl

/-- Two increasing lists of entries with the same members are the same. -/
theorem entries_unique {as bs : List Placement} (ha : (as.map Prod.fst).Pairwise (· < ·))
    (hb : (bs.map Prod.fst).Pairwise (· < ·)) (h : ∀ e, e ∈ as ↔ e ∈ bs) : as = bs := by
  rw [List.pairwise_map] at ha hb
  have hnodup : ∀ {es : List Placement}, es.Pairwise (fun a b => a.1 < b.1) → es.Nodup := by
    intro es hes
    refine hes.imp ?_
    rintro a _ hab rfl
    exact RankKey.lt_irrefl a.1 hab
  refine ((List.perm_ext_iff_of_nodup (hnodup ha) (hnodup hb)).mpr h).eq_of_pairwise ?_ ha hb
  intro a b _ _ hab hba
  exact absurd (RankKey.lt_trans hab hba) (RankKey.lt_irrefl a.1)

/-- The entries of a tree in order are those of a map, if they have the same
members. -/
theorem entries_eq_toList {x : Avl} {m : Placements} (ho : x.Ordered)
    (h : ∀ k p, (k, p) ∈ x.entries ↔ m[k]? = some p) : x.entries = m.toList := by
  refine entries_unique ho ?_ fun e => ?_
  · rw [List.pairwise_map]
    exact m.ordered_keys_toList.imp fun h => RankKey.compare_lt.mp h
  · rw [h e.1 e.2, Std.TreeMap.mem_toList_iff_getElem?_eq_some]

/-- A tree with the entries of a map has its keys. -/
theorem mem_keys_iff {x : Avl} {m : Placements} (h : ∀ k p, (k, p) ∈ x.entries ↔ m[k]? = some p)
    {key : RankKey} : key ∈ x.keys ↔ key ∈ m := by
  rw [Std.TreeMap.mem_iff_isSome_getElem?, Option.isSome_iff_exists]
  constructor
  · intro hk
    obtain ⟨⟨k, p⟩, he, rfl⟩ := List.mem_map.mp hk
    exact ⟨p, (h k p).mp he⟩
  · rintro ⟨p, hp⟩
    exact mem_keys_of_mem ((h key p).mpr hp)

end Avl

namespace Tree

/-- The contents hold a tree with the entries of a map. -/
structure Represents (t : Tree) (c : Contents) (m : Placements) (x : Avl) : Prop where
  /-- The records spell the tree. -/
  holds : t.Holds c x
  /-- A pointer to a key can be read back. -/
  made : ∀ k ∈ x.keys, k.Made
  /-- The tree has the entries of the map. -/
  mem_entries : ∀ k p, (k, p) ∈ x.entries ↔ m[k]? = some p

/-- The contents hold some tree with the entries of a map. -/
def Models (t : Tree) (c : Contents) (m : Placements) : Prop := ∃ x, t.Represents c m x

variable {t : Tree} {c : Contents} {m : Placements}

namespace Represents

variable {x : Avl}

theorem valid (h : t.Represents c m x) : t.Valid c x :=
  ⟨h.holds, fun _ hk => h.made _ (Avl.root_mem_keys hk)⟩

theorem entries_eq (h : t.Represents c m x) : x.entries = m.toList :=
  Avl.entries_eq_toList h.holds.ordered h.mem_entries

theorem length_eq (h : t.Represents c m x) : x.entries.length = m.size := by
  rw [h.entries_eq, Std.TreeMap.length_toList]

theorem lookup_eq (h : t.Represents c m x) (key : RankKey) : x.lookup key = m[key]? := by
  apply Option.ext
  intro p
  rw [Avl.lookup_eq_some h.holds.ordered, h.mem_entries]

theorem mem_keys (h : t.Represents c m x) {key : RankKey} : key ∈ x.keys ↔ key ∈ m :=
  Avl.mem_keys_iff h.mem_entries

theorem height_le (h : t.Represents c m x) (hsize : m.size < UInt64.size) :
    x.height ≤ Walk.maxDepth :=
  Avl.height_le_maxDepth h.holds.balanced (h.length_eq ▸ hsize)

end Represents

/-! ## A tree without nodes -/

theorem models_empty (h : t.PointsTo c none) : t.Models c ∅ :=
  ⟨.nil, holds_nil h, by simp, by simp⟩

/-! ## Records beside the tree -/

theorem Models.made (h : t.Models c m) : ∀ k ∈ m, k.Made := by
  obtain ⟨x, hx⟩ := h
  exact fun k hk => hx.made k (hx.mem_keys.mpr hk)

/-- A put of the record of an entity leaves the tree as it is. -/
theorem Models.put_entityKey (h : t.Models c m) (e : String) (value : Bytes) :
    t.Models (c.put (t.name.entityKey e) value) m := by
  obtain ⟨x, hx⟩ := h
  have hroot : c.put (t.name.entityKey e) value t.name.rootKey = c t.name.rootKey :=
    Contents.put_of_ne _ _ (t.name.entityKey_ne_rootKey e).symm
  have hstored : t.stored (c.put (t.name.entityKey e) value) = t.stored c := by
    funext k
    exact stored_congr (Contents.put_of_ne _ _ (t.name.entityKey_ne_nodeKey e k).symm)
  refine ⟨x, ⟨(Contents.spells_congr hroot).mpr hx.holds.points, ?_, hx.holds.ordered,
    hx.holds.balanced⟩, hx.made, hx.mem_entries⟩
  rw [hstored]
  exact hx.holds.stands

/-! ## Reading -/

theorem Models.search (h : t.Models c m) (hreach : Avl.maxHeight ≤ t.reach) (key : RankKey) :
    (t.search key).eval c = (.ok m[key]?, []) := by
  obtain ⟨x, hx⟩ := h
  rw [search_eval hx.valid hreach, hx.lookup_eq]

theorem Models.root (h : t.Models c m) :
    ∃ ref, t.root.eval c = (.ok ref, []) ∧ ref.isNone = m.isEmpty ∧ ∀ k ∈ ref, k ∈ m := by
  obtain ⟨x, hx⟩ := h
  refine ⟨x.root, root_eval hx.holds.points hx.valid.2, ?_, fun k hk => ?_⟩
  · rw [← Std.TreeMap.isEmpty_toList, ← hx.entries_eq]
    cases x with
    | nil => rfl
    | node l k p r =>
        rw [Avl.entries_node, List.isEmpty_eq_false_iff.mpr (by simp)]
        rfl
  · exact hx.mem_keys.mp (Avl.root_mem_keys hk)

theorem Models.isEmpty (h : t.Models c m) : t.isEmpty.eval c = (.ok m.isEmpty, []) := by
  obtain ⟨x, hx⟩ := h
  rw [isEmpty_eval hx.valid, hx.entries_eq, Std.TreeMap.isEmpty_toList]

theorem Models.entries (h : t.Models c m) (hsize : m.size < UInt64.size)
    (hreach : UInt64.size ≤ t.reach) : t.entries.eval c = (.ok m.toList, []) := by
  obtain ⟨x, hx⟩ := h
  rw [entries_eval hx.valid (hx.height_le hsize) (by rw [hx.length_eq]; omega), hx.entries_eq]

theorem Models.top (h : t.Models c m) (hsize : m.size < UInt64.size) (n : Nat) :
    (t.top n).eval c = (.ok ((m.toList.reverse.take n).map Prod.snd), []) := by
  obtain ⟨x, hx⟩ := h
  rw [top_eval hx.valid (hx.height_le hsize), hx.entries_eq]

theorem Models.validate (h : t.Models c m) :
    ∃ height, t.validate.eval c = (.ok { nodes := m.size, height }, []) := by
  obtain ⟨x, hx⟩ := h
  exact ⟨x.height, by rw [validate_eval hx.valid, hx.length_eq]⟩

/-! ## Inserting and deleting -/

section

variable {α β : Type} {cmp : α → α → Ordering}

theorem contains_eq_false {m : Std.TreeMap α β cmp} {a : α} (h : a ∉ m) :
    m.contains a = false := by
  rw [← Bool.not_eq_true, Std.TreeMap.contains_iff_mem]
  exact h

variable [Std.TransCmp cmp] [Std.LawfulEqCmp cmp] [DecidableEq α]

theorem getElem?_insertIfNew (m : Std.TreeMap α β cmp) (a : α) (b : β) (k : α) :
    (m.insertIfNew a b)[k]? = if k = a ∧ a ∉ m then some b else m[k]? := by
  simp only [Std.TreeMap.getElem?_insertIfNew, Std.LawfulEqCmp.compare_eq_iff_eq, @eq_comm _ k]

theorem getElem?_erase (m : Std.TreeMap α β cmp) (a k : α) :
    (m.erase a)[k]? = if k = a then none else m[k]? := by
  simp only [Std.TreeMap.getElem?_erase, Std.LawfulEqCmp.compare_eq_iff_eq, @eq_comm _ k]

end

/-- Inserting in a tree is inserting in the map of its entries. -/
theorem mem_entries_insert {x : Avl} (ho : x.Ordered) (hb : x.Balanced)
    (h : ∀ k p, (k, p) ∈ x.entries ↔ m[k]? = some p) (key : RankKey) (payload : String)
    (k : RankKey) (p : String) :
    (k, p) ∈ ((x.insert key payload).getD x).entries ↔
      (m.insertIfNew key payload)[k]? = some p := by
  rw [getElem?_insertIfNew]
  cases hins : x.insert key payload with
  | none =>
      obtain ⟨q, hq⟩ := Avl.insert_eq_none hins
      have hmem : key ∈ m := (Avl.mem_keys_iff h).mp (Avl.mem_keys_of_mem hq)
      rw [if_neg fun h => h.2 hmem]
      exact h k p
  | some x' =>
      obtain ⟨hnew, hentries⟩ := Avl.mem_insert ho hb hins
      have hmem : key ∉ m := fun hk => hnew ((Avl.mem_keys_iff h).mpr hk)
      rw [Option.getD_some, hentries, h, Prod.mk.injEq]
      by_cases hk : k = key
      · subst hk
        simp [hmem, eq_comm]
      · simp [hk]

/-- Deleting from a tree is erasing from the map of its entries. -/
theorem mem_entries_delete {x : Avl} (ho : x.Ordered) (hb : x.Balanced)
    (h : ∀ k p, (k, p) ∈ x.entries ↔ m[k]? = some p) (key k : RankKey) (p : String) :
    (k, p) ∈ ((x.delete key).getD x).entries ↔ (m.erase key)[k]? = some p := by
  rw [getElem?_erase]
  cases hdel : x.delete key with
  | none =>
      have hmem : key ∉ m := by
        intro hk
        obtain ⟨e, he, rfl⟩ := List.mem_map.mp ((Avl.mem_keys_iff h).mpr hk)
        exact Avl.delete_eq_none ho hdel e.2 he
      rw [Option.getD_none, h]
      split
      next hk => rw [hk, Std.TreeMap.getElem?_eq_none hmem]
      next => rfl
  | some x' =>
      rw [Option.getD_some, (Avl.mem_delete ho hb hdel).2, h]
      by_cases hk : k = key <;> simp [hk]

theorem Models.insert (h : t.Models c m) (hreach : Avl.maxHeight ≤ t.reach) {key : RankKey}
    {payload : String} (hkey : key.Made) (hp : Codec.Fits payload) :
    ∃ puts, (t.insert key payload).eval c = (.ok (!m.contains key), puts) ∧ t.Own puts ∧
      (key ∈ m → puts = []) ∧ t.Models (c.write puts) (m.insertIfNew key payload) := by
  obtain ⟨x, hx⟩ := h
  have hmap :=
    mem_entries_insert hx.holds.ordered hx.holds.balanced hx.mem_entries key payload
  cases hins : x.insert key payload with
  | none =>
      rw [hins] at hmap
      obtain ⟨p, hp⟩ := Avl.insert_eq_none hins
      have hmem : key ∈ m := hx.mem_keys.mp (Avl.mem_keys_of_mem hp)
      refine ⟨[], ?_, by simp [Own], fun _ => rfl, x, hx.holds, hx.made, hmap⟩
      rw [insert_eval_of_none hx.valid hreach hins, Std.TreeMap.contains_iff_mem.mpr hmem]
      rfl
  | some x' =>
      rw [hins] at hmap
      obtain ⟨hnew, hentries⟩ := Avl.mem_insert hx.holds.ordered hx.holds.balanced hins
      have hmem : key ∉ m := fun hk => hnew (hx.mem_keys.mpr hk)
      obtain ⟨puts, heval, hown, hholds⟩ := insert_eval_of_some hx.valid hreach hp hins
      refine ⟨puts, ?_, hown, fun h => absurd h hmem, x', hholds, fun k hk => ?_, hmap⟩
      · rw [heval, contains_eq_false hmem]
        rfl
      · obtain ⟨e, he, rfl⟩ := List.mem_map.mp hk
        rcases (hentries e).mp he with rfl | he
        · exact hkey
        · exact hx.made _ (List.mem_map_of_mem he)

theorem Models.delete (h : t.Models c m) (hreach : Avl.maxHeight ≤ t.reach) (key : RankKey) :
    ∃ puts, (t.delete key).eval c = (.ok (m.contains key), puts) ∧ t.Own puts ∧
      (key ∉ m → puts = []) ∧ t.Models (c.write puts) (m.erase key) := by
  obtain ⟨x, hx⟩ := h
  have hmap := mem_entries_delete hx.holds.ordered hx.holds.balanced hx.mem_entries key
  cases hdel : x.delete key with
  | none =>
      rw [hdel] at hmap
      have hmem : key ∉ m := by
        intro hk
        obtain ⟨e, he, rfl⟩ := List.mem_map.mp (hx.mem_keys.mpr hk)
        exact Avl.delete_eq_none hx.holds.ordered hdel e.2 he
      refine ⟨[], ?_, by simp [Own], fun _ => rfl, x, hx.holds, hx.made, hmap⟩
      rw [delete_eval_of_none hx.valid hreach hdel, contains_eq_false hmem]
  | some x' =>
      rw [hdel] at hmap
      obtain ⟨hold, hentries⟩ := Avl.mem_delete hx.holds.ordered hx.holds.balanced hdel
      have hmem : key ∈ m := hx.mem_keys.mp hold
      obtain ⟨puts, heval, hown, hholds⟩ := delete_eval_of_some hx.valid hreach hdel
      refine ⟨puts, ?_, hown, fun h => absurd hmem h, x', hholds, fun k hk => ?_, hmap⟩
      · rw [heval, Std.TreeMap.contains_iff_mem.mpr hmem]
      · obtain ⟨e, he, rfl⟩ := List.mem_map.mp hk
        exact hx.made _ (List.mem_map_of_mem ((hentries e).mp he).1)

end Tree

/-! ## Changes -/

/-- A change to a tree. -/
inductive Change where
  /-- To insert a payload at a key. -/
  | insert (key : RankKey) (payload : String)
  /-- To delete the node at a key. -/
  | delete (key : RankKey)
deriving DecidableEq, Repr

namespace Change

/-- The key of a change. -/
def key : Change → RankKey
  | insert key _ | delete key => key

/-- Makes a change.  Tells whether there was anything to insert or delete. -/
def serve (t : Tree) : Change → Access Bool
  | insert key payload => t.insert key payload
  | delete key => t.delete key

/-- Whether a map has anything to insert or delete. -/
def effective (m : Placements) : Change → Bool
  | insert key _ => !m.contains key
  | delete key => m.contains key

/-- The changed map. -/
def apply (m : Placements) : Change → Placements
  | insert key payload => m.insertIfNew key payload
  | delete key => m.erase key

/-- What is inserted fits in a record. -/
def Fits : Change → Prop
  | insert _ payload => Codec.Fits payload
  | delete _ => True

instance : DecidablePred Fits
  | insert _ payload => inferInstanceAs (Decidable (Codec.Fits payload))
  | delete _ => inferInstanceAs (Decidable True)

/-- What is inserted fits in a record, at a key that can be read back as a
pointer. -/
def Representable : Change → Prop
  | insert key payload => key.Made ∧ Codec.Fits payload
  | delete _ => True

instance : DecidablePred Representable
  | insert key payload => inferInstanceAs (Decidable (key.Made ∧ Codec.Fits payload))
  | delete _ => inferInstanceAs (Decidable True)

theorem Representable.fits {change : Change} (h : change.Representable) : change.Fits := by
  cases change with
  | insert key payload => exact h.2
  | delete key => trivial

/-- A change fails if the pointer to the root cannot be read. -/
theorem serve_eval_of_error {t : Tree} {c : Contents} {failure : Failure} (change : Change)
    (hroot : t.root.eval c = (.error failure, [])) :
    (change.serve t).eval c = (.error failure, []) := by
  cases change with
  | insert key payload => exact Access.eval_bind_error hroot _
  | delete key => exact Access.eval_bind_error hroot _

/-- A change of a tree that the contents hold succeeds, and they hold the tree with
other keys only as far as it says. -/
theorem serve_holds {t : Tree} {c : Contents} {x : Avl} (change : Change) (h : t.Valid c x)
    (hreach : Avl.maxHeight ≤ t.reach) (hfits : change.Fits) :
    ∃ done puts x', (change.serve t).eval c = (.ok done, puts) ∧ t.Holds (c.write puts) x' ∧
      ∀ k ∈ x'.keys, k ∈ x.keys ∨ k = change.key := by
  have hmem : ∀ {x' : Avl}, (∀ e ∈ x'.entries, e ∈ x.entries ∨ e.1 = change.key) →
      ∀ k ∈ x'.keys, k ∈ x.keys ∨ k = change.key := by
    intro x' hx' k hk
    obtain ⟨e, he, rfl⟩ := List.mem_map.mp hk
    exact (hx' e he).imp_left fun h => List.mem_map_of_mem h
  have hsame : ∀ k ∈ x.keys, k ∈ x.keys ∨ k = change.key := fun k hk => .inl hk
  cases change with
  | insert key payload =>
      cases hins : x.insert key payload with
      | none => exact ⟨_, [], x, Tree.insert_eval_of_none h hreach hins, h.1, hsame⟩
      | some x' =>
          obtain ⟨puts, heval, -, hholds⟩ := Tree.insert_eval_of_some h hreach hfits hins
          refine ⟨_, puts, x', heval, hholds, hmem fun e he => ?_⟩
          rcases ((Avl.mem_insert h.1.ordered h.1.balanced hins).2 e).mp he with rfl | he
          · exact .inr rfl
          · exact .inl he
  | delete key =>
      cases hdel : x.delete key with
      | none => exact ⟨_, [], x, Tree.delete_eval_of_none h hreach hdel, h.1, hsame⟩
      | some x' =>
          obtain ⟨puts, heval, -, hholds⟩ := Tree.delete_eval_of_some h hreach hdel
          refine ⟨_, puts, x', heval, hholds, hmem fun e he => ?_⟩
          exact .inl (((Avl.mem_delete h.1.ordered h.1.balanced hdel).2 e).mp he).1

/-- A change of contents that model a map. -/
theorem serve_models {t : Tree} {c : Contents} {m : Placements} (change : Change)
    (h : t.Models c m) (hreach : Avl.maxHeight ≤ t.reach) (hrep : change.Representable) :
    ∃ puts, (change.serve t).eval c = (.ok (change.effective m), puts) ∧ t.Own puts ∧
      (change.effective m = false → puts = []) ∧ t.Models (c.write puts) (change.apply m) := by
  cases change with
  | insert key payload =>
      obtain ⟨puts, heval, hown, hputs, hmodels⟩ := h.insert hreach hrep.1 hrep.2
      refine ⟨puts, heval, hown, fun he => hputs ?_, hmodels⟩
      rw [effective, Bool.not_eq_false'] at he
      exact Std.TreeMap.contains_iff_mem.mp he
  | delete key =>
      obtain ⟨puts, heval, hown, hputs, hmodels⟩ := h.delete hreach key
      refine ⟨puts, heval, hown, fun he => hputs ?_, hmodels⟩
      rw [← Std.TreeMap.contains_iff_mem]
      exact ne_true_of_eq_false he

end Change

end Leaderboard
