import Leaderboard.Proofs.Tree.Crossing

/-!
# Valid trees stay valid

A change of a valid tree succeeds and leaves records that again spell a balanced
search tree with exact heights (`change_keeps_valid`).  Success is all that has
to be said of faults: a rotation without a pivot, a dangling reference and a
malformed record each end the operation with a failure.

The pointer to the root is the one pointer whose separator is checked when it is
read.  A child pointer with another byte there goes unnoticed until a rotation
puts it at the root, where the tree is lost (`crooked_child_lost`).  So the tree
that is left is said to be valid only if all keys are `RankKey.Made`.  They are
in every state that comes about by changes with such keys, and there an audit
counts the entries.

An audit tells valid trees from all other contents (`audit_passes_iff_valid`).
-/

namespace Leaderboard

open ReliableStore (Sound contents)

/-- The store and the entries that changes with keys that can be read back lead to,
from a store without the tree. -/
inductive Reachable {σ : Type} [ByteStore σ] [ReliableStore σ] (t : Tree) :
    σ → Placements → Prop where
  /-- A store without the tree. -/
  | start {store : σ} : Sound store → t.PointsTo (contents store) none → Reachable t store ∅
  /-- A change. -/
  | change {store : σ} {m : Placements} (change : Change) : Reachable t store m →
      change.Representable → Reachable t ((change.serve t).on store).2 (change.apply m)

section

variable {σ : Type} [ByteStore σ] [ReliableStore σ] {t : Tree} {store : σ} {m : Placements}

theorem Reachable.models (h : Reachable t store m) (hreach : Avl.maxHeight ≤ t.reach) :
    Sound store ∧ t.Models (contents store) m := by
  induction h with
  | start hsound hroot => exact ⟨hsound, Tree.models_empty hroot⟩
  | change change _ hrep ih =>
      obtain ⟨hsound, hmodels⟩ := ih
      obtain ⟨puts, heval, -, -, hmodels'⟩ := change.serve_models hmodels hreach hrep
      obtain ⟨store', hon, hsound', hcontents, -⟩ := (change.serve t).on_eq_eval hsound
      rw [heval] at hcontents
      rw [hon]
      exact ⟨hsound', hcontents ▸ hmodels'⟩

/-- Changes lead on, one after the other. -/
theorem Reachable.onEach {changes : List Change} (h : Reachable t store m)
    (hrep : ∀ change ∈ changes, change.Representable) :
    Reachable t (Access.onEach (changes.map (Change.serve t)) store).2
      (changes.foldl (fun m change => change.apply m) m) := by
  induction changes generalizing store m with
  | nil => exact h
  | cons change changes ih =>
      exact ih (h.change change (hrep change (.head _))) fun change hchange =>
        hrep change (.tail _ hchange)

/-- Changes of a valid tree succeed, and valid trees with keys that can be read back
stay so.  In every state that such changes lead to, an audit passes and counts the
entries. -/
theorem change_keeps_valid (name : TreeName) (tombstones : Bool) :
    (∀ (change : Change) {store : σ} {x : Avl}, Sound store →
      (name.tree tombstones).Valid (contents store) x → change.Fits →
        ∃ done store' x', (change.serve (name.tree tombstones)).on store = (.ok done, store') ∧
          Sound store' ∧ (name.tree tombstones).Holds (contents store') x' ∧
          ((∀ k ∈ x.keys, k.Made) → change.key.Made →
            (name.tree tombstones).Valid (contents store') x' ∧ ∀ k ∈ x'.keys, k.Made)) ∧
    ∀ {store : σ} {m : Placements}, Reachable (name.tree tombstones) store m →
      ∃ height store', (name.tree tombstones).validate.on store =
        (.ok { nodes := m.size, height }, store') := by
  have hreach := name.maxHeight_le_reach tombstones
  constructor
  · intro change store x hsound hvalid hfits
    obtain ⟨done, puts, x', heval, hholds, hkeys⟩ := change.serve_holds hvalid hreach hfits
    obtain ⟨store', hon, hsound', hcontents, -⟩ :=
      (change.serve (name.tree tombstones)).on_eq_eval hsound
    rw [heval] at hon hcontents
    rw [← hcontents] at hholds
    refine ⟨done, store', x', hon, hsound', hholds, fun hmade hkey => ?_⟩
    have hmade' : ∀ k ∈ x'.keys, k.Made := by
      intro k hk
      rcases hkeys k hk with hk | rfl
      · exact hmade k hk
      · exact hkey
    exact ⟨⟨hholds, fun k hk => hmade' k (Avl.root_mem_keys hk)⟩, hmade'⟩
  · intro store m h
    obtain ⟨hsound, hmodels⟩ := h.models hreach
    obtain ⟨height, heval⟩ := hmodels.validate
    obtain ⟨store', hon, -⟩ := (name.tree tombstones).validate.on_eq_eval hsound
    rw [heval] at hon
    exact ⟨height, store', hon⟩

end

/-- Changes of a tree that has no nodes at first.  The third insert rotates, and so does the
delete. -/
def Turning.changes : List Change :=
  [.insert (.ofCount 3) "c", .insert (.ofCount 2) "b", .insert (.ofCount 1) "a",
    .insert (.ofCount 4) "d", .delete (.ofCount 1)]

/-- An insert that puts the left child of two nodes on top, and changes that rotate and leave three
entries. -/
theorem change_keeps_valid_turning :
    (∃ done store' x', (Cut.last.serve (Cut.name.tree true)).on Cut.store = (.ok done, store') ∧
      (Cut.name.tree true).Valid (contents store') x' ∧ x'.root = some (Cut.key 2)) ∧
    ∃ height store', Tree.sample.validate.on
        (Access.onEach (Turning.changes.map (Change.serve .sample)) ({} : MemoryStore)).2 =
      (.ok { nodes := 3, height }, store') := by
  constructor
  · have hmade : ∀ k ∈ Cut.tree.keys, k.Made := by decide
    obtain ⟨done, store', x', hon, -, -, hkeeps⟩ :=
      (change_keeps_valid Cut.name true).1 Cut.last trivial Cut.valid (by decide)
    obtain ⟨hvalid, -⟩ := hkeeps hmade (by decide)
    have hpoints : (Cut.name.tree true).PointsTo (contents store') (some (Cut.key 2)) := by
      have hstore' : store' = ((Cut.last.serve (Cut.name.tree true)).on Cut.store).2 := by rw [hon]
      show contents store' Cut.name.rootKey = some (Cut.key 2).encode
      rw [hstore']
      decide +kernel
    exact ⟨done, store', x', hon, hvalid, Contents.Spells.unique hvalid.1.points hpoints⟩
  · have hroot : Tree.sample.PointsTo (contents ({} : MemoryStore)) none :=
      .inl (by simp [contents])
    have hrep : ∀ change ∈ Turning.changes, change.Representable := by decide
    have hreachable := (Reachable.start trivial hroot).onEach hrep
    have hsize :
        (Turning.changes.foldl (fun m (change : Change) => change.apply m) ∅).size = 3 := by
      decide +kernel
    rw [← hsize]
    exact (change_keeps_valid .t true).2 hreachable

/-! ## A child pointer without its separator -/

namespace Crooked

/-- The key at the root. -/
def top : RankKey := { count := 1, tie := 0 }

/-- The key of the right child, with another byte in the place of the separator. -/
def child : RankKey := .crooked 2

/-- The name of the tree. -/
def name : TreeName := ⟨"t", by decide, by decide⟩

/-- A store with the two nodes. -/
def store : MemoryStore where
  records := ((∅ : Std.TreeMap Bytes Bytes).insert name.rootKey top.encode
    |>.insert (name.nodeKey top) (Node.encode { payload := "a", right := some child, height := 2 })
    |>.insert (name.nodeKey child) (Node.leaf "b").encode)

/-- The tree of the two nodes. -/
def tree : Avl := .node .nil top "a" (.node .nil child "b" .nil)

/-- What the store holds. -/
theorem contents_store : contents store =
    ((Contents.put (fun _ => none) name.rootKey top.encode).put (name.nodeKey top)
      (Node.encode { payload := "a", right := some child, height := 2 })).put
        (name.nodeKey child) (Node.leaf "b").encode := by
  have hempty : (fun k : Bytes => (∅ : Std.TreeMap Bytes Bytes)[k]?) = fun _ => none := by
    funext k
    exact Std.TreeMap.getElem?_emptyc
  rw [← hempty, ← MemoryStore.getElem?_insert, ← MemoryStore.getElem?_insert,
    ← MemoryStore.getElem?_insert]
  rfl

/-- The tree is valid: an audit would pass. -/
theorem valid : (name.tree true).Valid (contents store) tree := by
  rw [contents_store]
  refine ⟨⟨?_, ⟨⟨2, ?_, rfl⟩, trivial, ⟨1, ?_, rfl⟩, trivial, trivial⟩, ?_, ?_⟩, ?_⟩
  · show Contents.put _ _ _ name.rootKey = _
    rw [Contents.put_of_ne _ _ (name.nodeKey_ne_rootKey child).symm,
      Contents.put_of_ne _ _ (name.nodeKey_ne_rootKey top).symm]
    exact Contents.put_self ..
  · refine (Tree.stored_put (t := name.tree true) _ child (n := .leaf "b") (by decide) top).trans ?_
    rw [if_neg (by decide)]
    exact (Tree.stored_put (t := name.tree true) _ top (by decide) top).trans (if_pos rfl)
  · exact (Tree.stored_put (t := name.tree true) _ child (n := .leaf "b") (by decide) child).trans
      (if_pos rfl)
  · have hlt : top < child := by decide +kernel
    simpa [Avl.Ordered, tree] using hlt
  · simp [Avl.Balanced, tree]
  · intro k hk
    cases hk
    rfl

end Crooked

/-- An insert that rotates a child without its separator to the root leaves no valid
tree, and an audit cannot read the pointer to the root. -/
theorem crooked_child_lost :
    (Crooked.name.tree true).Valid (contents Crooked.store) Crooked.tree ∧
      ∃ store', ((Crooked.name.tree true).insert (.make 3 0 .newerFirst) "c").on Crooked.store =
          (.ok true, store') ∧
        (∀ x', ¬ (Crooked.name.tree true).Valid (contents store') x') ∧
        ((Crooked.name.tree true).validate.on store').1 =
          .error (.malformedRecord Crooked.name.rootKey (.undecodable .missingSeparator)) := by
  refine ⟨Crooked.valid, ?_⟩
  have hgt : compare (RankKey.make 3 0 .newerFirst) Crooked.child = .gt := by decide +kernel
  have hgt' : compare (RankKey.make 3 0 .newerFirst) Crooked.top = .gt := by decide +kernel
  have hins : Crooked.tree.insert (.make 3 0 .newerFirst) "c" =
      some (.node (.node .nil Crooked.top "a" .nil) Crooked.child "b"
        (.node .nil (.make 3 0 .newerFirst) "c" .nil)) := by
    simp [Avl.insert, Crooked.tree, Avl.locate, hgt, hgt', Avl.regrow, Avl.Frame.regrow,
      Avl.balance, Avl.raise, Avl.straighten, Avl.rotate]
  have hreach := Crooked.name.maxHeight_le_reach true
  obtain ⟨puts, heval, -, hholds⟩ :=
    Tree.insert_eval_of_some Crooked.valid hreach (by decide) hins
  obtain ⟨store', hon, hsound, hcontents, -⟩ :=
    ((Crooked.name.tree true).insert (.make 3 0 .newerFirst) "c").on_eq_eval
      (s := Crooked.store) trivial
  rw [heval] at hon hcontents
  rw [← hcontents] at hholds
  have hcrooked : ¬ Crooked.child.Made := RankKey.not_made_crooked 2
  refine ⟨store', hon, fun x' hvalid => ?_, ?_⟩
  · have hroot := Contents.Spells.unique hvalid.1.points hholds.points
    exact hcrooked (hvalid.2 _ hroot)
  · obtain ⟨store'', hon', -⟩ := (Crooked.name.tree true).validate.on_eq_eval hsound
    rw [hon', Tree.validate,
      Access.eval_bind_error (Tree.root_eval_of_not_made hholds.points hcrooked)]
    rfl

/-! ## What an audit accepts -/

/-- An audit of any contents passes just if they hold a valid tree, and tells how many nodes
the tree has and how high it is.  It comes to an end, and finds every node it has read. -/
theorem audit_passes_iff_valid {σ : Type} [ByteStore σ] [ReliableStore σ] (t : Tree) {store : σ}
    (hsound : Sound store) :
    (∀ stats, (t.validate.on store).1 = .ok stats ↔
      ∃ x, t.Valid (contents store) x ∧
        stats = { nodes := x.entries.length, height := x.height }) ∧
    ∀ failure, (t.validate.on store).1 = .error failure →
      (∀ name key, failure ≠ .integrity (.notLoaded name key)) ∧
        ∀ name steps, failure ≠ .integrity (.endless name steps) := by
  rw [t.validate.on_fst hsound]
  rcases Tree.validate_cases t (contents store) with ⟨x, hx⟩ | ⟨failure, puts, heval, hfailure⟩
  · refine ⟨fun stats => ⟨fun h => ⟨x, hx, ?_⟩, ?_⟩, fun failure h => ?_⟩
    · rw [Tree.validate_eval hx] at h
      cases h
      rfl
    · rintro ⟨y, hy, rfl⟩
      rw [Tree.validate_eval hy]
    · rw [Tree.validate_eval hx] at h
      cases h
  · refine ⟨fun stats => ⟨fun h => ?_, ?_⟩, fun failure' h => ?_⟩
    · rw [heval] at h
      cases h
    · rintro ⟨y, hy, -⟩
      rw [Tree.validate_eval hy] at heval
      cases heval
    · rw [heval] at h
      cases h
      -- none of the failures of an audit is one of the two
      constructor
      · rintro name key rfl
        rcases hfailure with h | ⟨_, h⟩ | h <;> cases h
      · rintro name steps rfl
        rcases hfailure with h | ⟨_, h⟩ | h <;> cases h

/-- The two nodes pass, though the pointer to the child has no separator. -/
theorem audit_passes_crooked :
    ((Crooked.name.tree true).validate.on Crooked.store).1 = .ok { nodes := 2, height := 2 } := by
  have hsound : Sound Crooked.store := trivial
  exact ((audit_passes_iff_valid (Crooked.name.tree true) hsound).1 _).mpr
    ⟨Crooked.tree, Crooked.valid, rfl⟩

end Leaderboard
