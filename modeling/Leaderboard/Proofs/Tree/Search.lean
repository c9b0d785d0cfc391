import Leaderboard.Proofs.Tree.Standing

/-!
# What a search comes to

`Avl.lookup` looks a key up in a tree value, and in a tree in order it finds the
payload of the entry with the key (`Avl.lookup_eq_some`).  On contents that hold a
tree, `Tree.search` does the same (`Tree.search_eval`), and `Tree.isEmpty` tells
whether there are entries (`Tree.isEmpty_eval`).
-/

namespace Leaderboard

namespace Avl

/-- The payload at a key. -/
def lookup (key : RankKey) : Avl → Option String
  | nil => none
  | node l k p r =>
      match compare key k with
      | .eq => some p
      | .lt => l.lookup key
      | .gt => r.lookup key

theorem mem_keys_of_mem {t : Avl} {key : RankKey} {p : String} (h : (key, p) ∈ t.entries) :
    key ∈ t.keys :=
  List.mem_map_of_mem (f := Prod.fst) h

theorem lookup_eq_some {t : Avl} {key : RankKey} {p : String} (h : t.Ordered) :
    t.lookup key = some p ↔ (key, p) ∈ t.entries := by
  induction t with
  | nil => simp [lookup]
  | node l k q r ihl ihr =>
      obtain ⟨hl, hr, hlk, hkr⟩ := ordered_node.mp h
      rw [lookup, entries_node, List.mem_append, List.mem_cons, Prod.mk.injEq]
      cases hc : compare key k with
      | eq =>
          have hk : key = k := Std.LawfulEqOrd.eq_of_compare hc
          subst hk
          constructor
          · intro hp
            exact .inr (.inl ⟨rfl, (Option.some.inj hp).symm⟩)
          · rintro (hp | ⟨-, rfl⟩ | hp)
            · have hlt := hlk key (mem_keys_of_mem hp)
              exact absurd hlt (RankKey.lt_irrefl key)
            · rfl
            · have hlt := hkr key (mem_keys_of_mem hp)
              exact absurd hlt (RankKey.lt_irrefl key)
      | lt =>
          have hlt : key < k := RankKey.compare_lt.mp hc
          constructor
          · intro hp
            exact .inl ((ihl hl).mp hp)
          · rintro (hp | ⟨rfl, -⟩ | hp)
            · exact (ihl hl).mpr hp
            · exact absurd hlt (RankKey.lt_irrefl key)
            · have hgt := hkr key (mem_keys_of_mem hp)
              exact absurd (RankKey.lt_trans hlt hgt) (RankKey.lt_irrefl key)
      | gt =>
          have hgt : k < key := RankKey.compare_gt.mp hc
          constructor
          · intro hp
            exact .inr (.inr ((ihr hr).mp hp))
          · rintro (hp | ⟨rfl, -⟩ | hp)
            · have hlt := hlk key (mem_keys_of_mem hp)
              exact absurd (RankKey.lt_trans hgt hlt) (RankKey.lt_irrefl k)
            · exact absurd hgt (RankKey.lt_irrefl key)
            · exact (ihr hr).mpr hp

end Avl

namespace Tree

variable {t : Tree} {c : Contents} {x : Avl}

theorem searchFrom_eval (key : RankKey) (h : x.Stands (t.stored c)) {fuel : Nat}
    (hfuel : x.height ≤ fuel) :
    (t.searchFrom key fuel x.root).eval c = (.ok (x.lookup key), []) := by
  induction x generalizing fuel with
  | nil => cases fuel <;> rfl
  | node l k p r ihl ihr =>
      obtain ⟨⟨height, hn, -⟩, hl, hr⟩ := h
      rw [Avl.height_node] at hfuel
      cases fuel with
      | zero => omega
      | succ fuel =>
          rw [Avl.root, searchFrom, Access.eval_bind_read (load_eval hn), Avl.lookup]
          cases compare key k with
          | eq => rfl
          | lt => exact ihl hl (by omega)
          | gt => exact ihr hr (by omega)

/-- A search of a tree that the contents hold. -/
theorem search_eval (h : t.Valid c x) (hreach : Avl.maxHeight ≤ t.reach) (key : RankKey) :
    (t.search key).eval c = (.ok (x.lookup key), []) := by
  obtain ⟨hholds, hmade⟩ := h
  have hheight := Avl.height_le_maxHeight hholds.balanced hholds.ordered.nodup
  rw [search, Access.eval_bind_read (root_eval hholds.points hmade)]
  exact searchFrom_eval key hholds.stands (hheight.trans hreach)

theorem isEmpty_eval (h : t.Valid c x) : t.isEmpty.eval c = (.ok x.entries.isEmpty, []) := by
  rw [isEmpty, Access.eval_bind_read (root_eval h.1.points h.2)]
  cases x with
  | nil => rfl
  | node l k p r =>
      rw [Avl.entries_node, Avl.root, List.isEmpty_eq_false_iff.mpr (by simp)]
      rfl

end Tree

end Leaderboard
