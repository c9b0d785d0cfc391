import Leaderboard.Proofs.Ranking.Order
import Leaderboard.Proofs.Tree.Map
import Leaderboard.Ranking

/-!
# Trees as rankings

A `Listing` is a map from ranks to entities that is sorted the highest rank first.
`Tree.Lists` says that the contents of a store hold a tree with the entities of a
listing at the keys of their ranks.  Since keys are ordered against ranks, the
entries of the tree backward are the listing (`Tree.Lists.top`).
-/

namespace Leaderboard

/-- A map from ranks to entities, the highest rank first. -/
abbrev Listing (p : TieBreak) := Std.TreeMap Rank String p.compareRanks

/-- A map has the entities of a listing, at the keys of their ranks. -/
structure Listing.Keyed {p : TieBreak} (l : Listing p) (m : Placements) : Prop where
  /-- At the key of a rank is what the listing has at the rank. -/
  getElem?_key : ∀ r, m[p.key r]? = l[r]?
  /-- Every key is that of some rank. -/
  exists_rank : ∀ k ∈ m, ∃ r, p.key r = k

namespace Listing.Keyed

variable {p : TieBreak} {l : Listing p} {m : Placements}

theorem contains_key (h : l.Keyed m) (r : Rank) : m.contains (p.key r) = l.contains r := by
  rw [Std.TreeMap.contains_eq_isSome_getElem?, h.getElem?_key,
    Std.TreeMap.contains_eq_isSome_getElem?]

theorem mem_key (h : l.Keyed m) {r : Rank} : p.key r ∈ m ↔ r ∈ l := by
  rw [Std.TreeMap.mem_iff_contains, h.contains_key, Std.TreeMap.mem_iff_contains]

theorem erase (h : l.Keyed m) (r : Rank) : Listing.Keyed (l.erase r) (m.erase (p.key r)) where
  getElem?_key s := by
    simp only [Tree.getElem?_erase, h.getElem?_key, TieBreak.key_inj]
  exists_rank k hk := h.exists_rank k (Std.TreeMap.mem_of_mem_erase hk)

theorem insertIfNew (h : l.Keyed m) (r : Rank) (e : String) :
    Listing.Keyed (l.insertIfNew r e) (m.insertIfNew (p.key r) e) where
  getElem?_key s := by
    simp only [Tree.getElem?_insertIfNew, h.getElem?_key, TieBreak.key_inj, h.mem_key]
  exists_rank k hk := by
    rw [Std.TreeMap.mem_insertIfNew, Std.LawfulEqOrd.compare_eq_iff_eq] at hk
    rcases hk with hk | hk
    · exact ⟨r, hk⟩
    · exact h.exists_rank k hk

/-- The entries of the map are those of the listing backward. -/
theorem toList_eq (h : l.Keyed m) :
    m.toList = (l.toList.map fun e => (p.key e.1, e.2)).reverse := by
  refine Avl.entries_unique ?_ ?_ fun ⟨k, e⟩ => ?_
  · rw [List.pairwise_map]
    exact m.ordered_keys_toList.imp fun h => RankKey.compare_lt.mp h
  · rw [List.map_reverse, List.pairwise_reverse, List.map_map, List.pairwise_map]
    refine l.ordered_keys_toList.imp fun {a b} hab => ?_
    rw [TieBreak.compareRanks_eq] at hab
    exact RankKey.compare_lt.mp hab
  · rw [List.mem_reverse, List.mem_map, Std.TreeMap.mem_toList_iff_getElem?_eq_some]
    constructor
    · intro he
      obtain ⟨r, rfl⟩ := h.exists_rank k (Std.TreeMap.mem_iff_isSome_getElem?.mpr (by simp [he]))
      rw [h.getElem?_key] at he
      exact ⟨(r, e), Std.TreeMap.mem_toList_iff_getElem?_eq_some.mpr he, rfl⟩
    · rintro ⟨⟨r, e'⟩, he, heq⟩
      cases heq
      rw [h.getElem?_key]
      exact Std.TreeMap.mem_toList_iff_getElem?_eq_some.mp he

end Listing.Keyed

namespace Tree

/-- The contents hold a tree with the entities of a listing at their keys. -/
def Lists (t : Tree) {p : TieBreak} (c : Contents) (l : Listing p) : Prop :=
  ∃ m, t.Models c m ∧ l.Keyed m

variable {t : Tree} {p : TieBreak} {c : Contents} {l : Listing p}

theorem lists_empty (h : t.PointsTo c none) : t.Lists c (∅ : Listing p) :=
  ⟨∅, models_empty h, fun r => by simp, by simp⟩

/-- The entities that rank highest. -/
theorem Lists.top (h : t.Lists c l) (hsize : l.size < UInt64.size) (n : Nat) :
    (t.top n).eval c = (.ok ((l.toList.take n).map Prod.snd), []) := by
  obtain ⟨m, hm, hl⟩ := h
  have hlength : m.size = l.size := by
    rw [← Std.TreeMap.length_toList, hl.toList_eq, List.length_reverse, List.length_map,
      Std.TreeMap.length_toList]
  rw [hm.top (hlength ▸ hsize), hl.toList_eq, List.reverse_reverse, ← List.map_take, List.map_map]
  rfl

theorem Lists.delete (h : t.Lists c l) (hreach : Avl.maxHeight ≤ t.reach) (r : Rank) :
    ∃ puts, (t.delete (p.key r)).eval c = (.ok (l.contains r), puts) ∧
      t.Lists (c.write puts) (l.erase r) := by
  obtain ⟨m, hm, hl⟩ := h
  obtain ⟨puts, heval, -, -, hm'⟩ := hm.delete hreach (p.key r)
  exact ⟨puts, by rw [heval, hl.contains_key], _, hm', hl.erase r⟩

theorem Lists.insert (h : t.Lists c l) (hreach : Avl.maxHeight ≤ t.reach) (r : Rank)
    {e : String} (he : Codec.Fits e) :
    ∃ puts, (t.insert (p.key r) e).eval c = (.ok (!l.contains r), puts) ∧
      t.Lists (c.write puts) (l.insertIfNew r e) := by
  obtain ⟨m, hm, hl⟩ := h
  obtain ⟨puts, heval, -, -, hm'⟩ := hm.insert hreach (TieBreak.made_key (p := p) r) he
  exact ⟨puts, by rw [heval, hl.contains_key], _, hm', hl.insertIfNew r e⟩

end Tree

/-! ## Operations of a ranking -/

/-- Deletes the node at a key, if there is a key. -/
def Tree.deleteAt (t : Tree) : NodeRef → Access Bool
  | some key => t.delete key
  | none => pure false

namespace Ranking

theorem withTree_text {α : Type} (r : Ranking) (name : TreeName) (operation : Tree → Access α) :
    r.withTree name.text operation = operation (name.tree r.settings.tombstones) := by
  have hname : TreeName.ofString name.text = .ok name := dif_pos ⟨name.nonempty, name.noSlash⟩
  have htree : r.tree name.text = .ok (name.tree r.settings.tombstones) := by
    rw [tree, hname]
    rfl
  rw [withTree, htree]

/-- An operation is on the tree of a valid name, or fails without a look at the store. -/
theorem withTree_cases {α : Type} (r : Ranking) (name : String) (operation : Tree → Access α) :
    (∃ t : TreeName, t.text = name ∧
        r.withTree name operation = operation (t.tree r.settings.tombstones)) ∨
      ∃ failure, r.withTree name operation = throw failure := by
  by_cases hname : name.toList ≠ [] ∧ '/' ∉ name.toList
  · exact .inl ⟨⟨name, hname.1, hname.2⟩, rfl, r.withTree_text ⟨name, hname.1, hname.2⟩ operation⟩
  · have htree : r.tree name = .error (.invalidTreeName name) := by
      rw [tree, TreeName.ofString, dif_neg hname]
      rfl
    exact .inr ⟨_, by rw [withTree, htree]⟩

/-- An insertion that has to make a node fails if it does not. -/
theorem insertNew_eval {t : Tree} {c : Contents} {key : RankKey} {entity : String} {done : Bool}
    {puts : List (Bytes × Bytes)} (h : (t.insert key entity).eval c = (.ok done, puts)) :
    (insertNew t key entity).eval c =
      (if done then .ok () else .error (.occupied (t.name.nodeKey key)), puts) := by
  rw [insertNew, Access.eval_bind h]
  cases done with
  | true => exact congrArg _ (List.append_nil puts)
  | false => exact congrArg _ (List.append_nil puts)

end Ranking

end Leaderboard
