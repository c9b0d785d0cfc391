import Leaderboard.Proofs.Tree.Map

/-!
# Changes that break off

A change writes the nodes it has changed, then the pointer to the root, and last the
tombstones.  If a put fails, the first of these puts have been made, and the records
spell a mixture of two trees: the one before the change and the one after it, which
is `Change.grow` of it.

`Change.session` describes the session of a change that has something to do, and so
its puts.  `Tree.Tidy` says that there are no records of nodes beside those of the
tree.  Changes keep that if the tree keeps tombstones (`Tree.Kept.serve`).
-/

namespace Leaderboard

open Session (flushPuts)

namespace Avl

/-- The node at a key of a tree has the payload of its entry. -/
theorem Stands.mem_entries {m : Memory} {x : Avl} (h : x.Stands m) {k : RankKey} {n : Node}
    (hk : k ∈ x.keys) (hn : m k = some n) : (k, n.payload) ∈ x.entries := by
  induction x with
  | nil => cases hk
  | node l j p r ihl ihr =>
      obtain ⟨⟨height, hj, -⟩, hl, hr⟩ := h
      rw [keys_node, List.mem_append, List.mem_cons] at hk
      rw [entries_node, List.mem_append, List.mem_cons]
      rcases hk with hk | rfl | hk
      · exact .inl (ihl hl hk)
      · rw [hj] at hn
        cases hn
        exact .inr (.inl rfl)
      · exact .inr (.inr (ihr hr hk))

end Avl

namespace Change

/-- The changed tree, if there is anything to insert or delete. -/
def grow : Change → Avl → Option Avl
  | insert key payload, x => x.insert key payload
  | delete key, x => x.delete key

/-- The keys that a change removes. -/
def removed : Change → List RankKey
  | insert _ _ => []
  | delete key => [key]

variable {change : Change} {x x' : Avl}

theorem ordered_grow (ho : x.Ordered) (hb : x.Balanced) (hx : change.grow x = some x') :
    x'.Ordered ∧ x'.Balanced := by
  cases change with
  | insert key payload =>
      obtain ⟨ho', hb', -⟩ := Avl.entries_insert ho hb hx
      exact ⟨ho', hb'⟩
  | delete key =>
      obtain ⟨ho', hb', -⟩ := Avl.entries_delete ho hb hx
      exact ⟨ho', hb'⟩

theorem mem_entries_grow (ho : x.Ordered) (hb : x.Balanced) (hx : change.grow x = some x')
    {e : Placement} (he : e ∈ x'.entries) : e ∈ x.entries ∨ change = .insert e.1 e.2 := by
  cases change with
  | insert key payload =>
      rcases ((Avl.mem_insert ho hb hx).2 e).mp he with rfl | he
      · exact .inr rfl
      · exact .inl he
  | delete key => exact .inl (((Avl.mem_delete ho hb hx).2 e).mp he).1

/-- The keys of the changed tree. -/
theorem mem_keys_grow (ho : x.Ordered) (hb : x.Balanced) (hx : change.grow x = some x')
    (k : RankKey) :
    (k ∈ x'.keys → k ∈ x.keys ∨ k = change.key) ∧
      (k ∈ x.keys → k ∈ x'.keys ∨ k ∈ change.removed) ∧ (k ∈ x'.keys → k ∉ change.removed) := by
  cases change with
  | insert key payload =>
      have hk := Avl.mem_keys_insert ho hb hx k
      exact ⟨fun h => (hk.mp h).symm, fun h => .inl (hk.mpr (.inr h)), fun _ h => by cases h⟩
  | delete key =>
      have hk := Avl.mem_keys_delete ho hb hx k
      rw [removed, List.mem_singleton]
      refine ⟨fun h => .inl (hk.mp h).1, fun h => ?_, fun h => (hk.mp h).2⟩
      by_cases hkey : k = key
      · exact .inr hkey
      · exact .inl (hk.mpr ⟨h, hkey⟩)

/-- A change that takes a key out of a tree deletes it. -/
theorem eq_delete (ho : x.Ordered) (hb : x.Balanced) (hx : change.grow x = some x') {k : RankKey}
    (hk : k ∈ x.keys) (hk' : k ∉ x'.keys) : change = .delete k := by
  have hremoved := ((mem_keys_grow ho hb hx k).2.1 hk).resolve_left hk'
  cases change with
  | insert key payload => cases hremoved
  | delete key => rw [List.mem_singleton.mp hremoved]

/-! ## What a change puts -/

variable {t : Tree} {c : Contents} {s : Session}

theorem givesUp_serve (change : Change) (t : Tree) : (change.serve t).GivesUp := by
  cases change with
  | insert key payload => exact Tree.givesUp_insert t key payload
  | delete key => exact Tree.givesUp_delete t key

theorem serve_eval_of_none (h : t.Valid c x) (hreach : Avl.maxHeight ≤ t.reach)
    (hx : change.grow x = none) : (change.serve t).eval c = (.ok false, []) := by
  cases change with
  | insert key payload => exact Tree.insert_eval_of_none h hreach hx
  | delete key => exact Tree.delete_eval_of_none h hreach hx

/-- The puts of a change are those of a session that sees the changed tree. -/
theorem session (h : t.Valid c x) (hreach : Avl.maxHeight ≤ t.reach) (hfits : change.Fits)
    (hx : change.grow x = some x') :
    ∃ s, (change.serve t).eval c =
        (.ok true, flushPuts t s x.root x'.root) ∧
      t.Regrown c x' s ∧ s.removed = change.removed := by
  cases change with
  | insert key payload => exact Tree.insert_session h hreach hfits hx
  | delete key => exact Tree.delete_session h hreach hx

/-- After that the records spell the changed tree. -/
theorem session_holds (h : t.Valid c x) (hreach : Avl.maxHeight ≤ t.reach) (hfits : change.Fits)
    (hx : change.grow x = some x') :
    ∃ s, (change.serve t).eval c = (.ok true, flushPuts t s x.root x'.root) ∧
      t.Regrown c x' s ∧ s.removed = change.removed ∧
      t.Holds (c.write (flushPuts t s x.root x'.root)) x' := by
  obtain ⟨s, heval, hs, hremoved⟩ := change.session h hreach hfits hx
  obtain ⟨ho, hb⟩ := change.ordered_grow h.1.ordered h.1.balanced hx
  refine ⟨s, heval, hs, hremoved, Tree.holds_flush h.1 hs ho hb fun k hk => ?_⟩
  rw [hremoved]
  exact (mem_keys_grow h.1.ordered h.1.balanced hx k).2.2 hk

end Change

namespace Tree

/-! ## Records beside the tree -/

/-- There are no records of nodes beside those of a tree. -/
def Tidy (t : Tree) (c : Contents) (x : Avl) : Prop := ∀ k ∉ x.keys, t.stored c k = none

/-- The contents hold a tree, and no other nodes. -/
structure Kept (t : Tree) (c : Contents) (x : Avl) : Prop where
  /-- The records spell the tree. -/
  holds : t.Holds c x
  /-- There are no other records of nodes. -/
  tidy : t.Tidy c x

variable {t : Tree} {c : Contents} {x x' : Avl} {change : Change}

/-- A change leaves no records beside those of the changed tree, if the tree keeps tombstones. -/
theorem Kept.serve (h : t.Kept c x) (hreach : Avl.maxHeight ≤ t.reach)
    (htombs : t.tombstones = true) (hfits : change.Fits) :
    ∃ x', t.Kept (c.write ((change.serve t).eval c).2) x' := by
  rcases h.holds.valid_or with hvalid | ⟨failure, hroot⟩
  · cases hx : change.grow x with
    | none =>
        rw [Change.serve_eval_of_none hvalid hreach hx]
        exact ⟨x, h⟩
    | some x' =>
        obtain ⟨s, heval, hs, hremoved, hholds⟩ := Change.session_holds hvalid hreach hfits hx
        have hkeys := Change.mem_keys_grow h.holds.ordered h.holds.balanced hx
        rw [heval]
        refine ⟨x', hholds, fun k hk => ?_⟩
        by_cases hk' : k ∈ s.removed
        · exact stored_flush_removed htombs _ _ hk'
        · rw [stored_flush hs.sound _ _ hk',
            sees_of_notMem_dirty hs.sound fun hd => hk (hs.mem_keys k hd)]
          refine h.tidy k fun hkx => ?_
          rw [hremoved] at hk'
          exact ((hkeys k).2.1 hkx).elim hk hk'
  · rw [change.serve_eval_of_error hroot]
    exact ⟨x, h⟩

/-- After the first puts of a change every node is one of the tree before it, or the inserted
one. -/
theorem Kept.stored_take (h : t.Kept c x) (hreach : Avl.maxHeight ≤ t.reach)
    (hfits : change.Fits) (count : Nat) {k : RankKey} {n : Node}
    (hn : t.stored (c.write (((change.serve t).eval c).2.take count)) k = some n) :
    (k, n.payload) ∈ x.entries ∨ change = .insert k n.payload := by
  have hold : t.stored c k = some n → (k, n.payload) ∈ x.entries := by
    intro hn
    refine h.holds.stands.mem_entries ?_ hn
    by_contra hk
    rw [h.tidy k hk] at hn
    cases hn
  rcases h.holds.valid_or with hvalid | ⟨failure, hroot⟩
  · cases hx : change.grow x with
    | none =>
        rw [Change.serve_eval_of_none hvalid hreach hx, List.take_nil] at hn
        exact .inl (hold hn)
    | some x' =>
        obtain ⟨s, heval, hs, -⟩ := Change.session hvalid hreach hfits hx
        rw [heval] at hn
        rcases stored_take_flush hs.sound _ _ count hn with hn | ⟨hd, hn⟩
        · exact .inl (hold hn)
        · exact Change.mem_entries_grow h.holds.ordered h.holds.balanced hx
            (hs.stands.mem_entries (hs.mem_keys k hd) hn)
  · rw [change.serve_eval_of_error hroot, List.take_nil] at hn
    exact .inl (hold hn)

end Tree

end Leaderboard
