import Leaderboard.Proofs.Store.Recording
import Leaderboard.Proofs.Tree.Mixture
import Leaderboard.Proofs.Tree.Torn

/-!
# Live records

`Memory.Reaches` says which nodes can be reached from a pointer.  If the records spell a tree,
those are the nodes of the tree (`Avl.Stands.reaches_iff`).

A change of a tree with tombstones rewrites the records of the nodes that it changes, empties
those of the nodes that it removes, and leaves all others alone.  So no record has a value
beside those of the tree (`Tree.Sole.serve`).  In a store that was empty at first and does not
fail, the records of nodes that have a value are therefore those of the nodes that can be
reached, whatever was inserted and deleted, and each is the record of its node in a balanced
tree with the present entries (`live_records_reached`).
-/

namespace Leaderboard

open ReliableStore (Sound contents)
open Session (flushPuts)

/-! ## Reachable nodes -/

/-- The nodes of a memory lead from a pointer to a key. -/
inductive Memory.Reaches (m : Memory) (ref : NodeRef) : RankKey → Prop where
  /-- The pointer itself leads there. -/
  | root {k : RankKey} (h : ref = some k) : Reaches m ref k
  /-- A node leads there. -/
  | child {j k : RankKey} {n : Node} {side : Side} (h : Reaches m ref j) (hn : m j = some n)
      (hk : n.child side = some k) : Reaches m ref k

namespace Memory

variable {m : Memory} {ref : NodeRef} {k : RankKey}

/-- What is reached from a child is reached from the node. -/
theorem Reaches.of_child {j : RankKey} {n : Node} (side : Side) (hn : m j = some n)
    (h : m.Reaches (n.child side) k) : m.Reaches (some j) k := by
  induction h with
  | root hk => exact .child (.root rfl) hn hk
  | child _ hn' hk ih => exact .child ih hn' hk

end Memory

namespace Avl

variable {m : Memory} {x : Avl} {k : RankKey}

/-- From the root of a tree that a memory spells its keys are reached, and no others. -/
theorem Stands.reaches_iff (h : x.Stands m) : m.Reaches x.root k ↔ k ∈ x.keys := by
  constructor
  · intro hk
    induction hk with
    | root hk => exact root_mem_keys hk
    | child _ hn hk ih => exact h.links.child_mem_keys ih hn hk
  · intro hk
    induction x with
    | nil => cases hk
    | node l j p r ihl ihr =>
        obtain ⟨⟨height, hj, -⟩, hl, hr⟩ := h
        rw [keys_node, List.mem_append, List.mem_cons] at hk
        rcases hk with hk | rfl | hk
        · exact .of_child .left hj (ihl hl hk)
        · exact .root rfl
        · exact .of_child .right hj (ihr hr hk)

end Avl

/-! ## Changed maps -/

namespace Change

/-- The entries of a changed tree are those of the changed map. -/
theorem mem_entries_apply {m : Placements} {x : Avl} (change : Change) (ho : x.Ordered)
    (hb : x.Balanced) (h : ∀ k p, (k, p) ∈ x.entries ↔ m[k]? = some p) (k : RankKey) (p : String) :
    (k, p) ∈ ((change.grow x).getD x).entries ↔ (change.apply m)[k]? = some p := by
  cases change with
  | insert key payload => exact Tree.mem_entries_insert ho hb h key payload k p
  | delete key => exact Tree.mem_entries_delete ho hb h key k p

/-- The map after some changes, of which those that have failed do nothing. -/
def served (m : Placements) : List (Change × Except Failure Bool) → Placements
  | [] => m
  | (change, .ok _) :: rest => served (change.apply m) rest
  | (_, .error _) :: rest => served m rest

end Change

/-! ## Records of a tree -/

/-- The record of a key has a value that is not empty. -/
def Contents.Live (c : Contents) (key : Bytes) : Prop := ∃ record, c key = some record ∧ record ≠ []

namespace Tree

/-- The contents hold a tree with the entries of a map, and no other records of nodes have a
value. -/
structure Sole (t : Tree) (c : Contents) (m : Placements) (x : Avl) : Prop where
  /-- The records spell the tree. -/
  holds : t.Holds c x
  /-- The tree has the entries of the map. -/
  mem_entries : ∀ k p, (k, p) ∈ x.entries ↔ m[k]? = some p
  /-- Records beside those of the tree are empty or missing. -/
  bare : ∀ k ∉ x.keys, ¬ c.Live (t.name.nodeKey k)

variable {t : Tree} {c : Contents} {m : Placements} {x x' : Avl} {k : RankKey}

/-- A record that spells a node is the record of that node. -/
theorem record_of_stored {n : Node} (h : t.stored c k = some n) :
    c (t.name.nodeKey k) = some n.encode := by
  obtain ⟨record, hrecord, -, hdecode⟩ := stored_eq_some.mp h
  rw [hrecord, (Node.decode_eq_ok hdecode).2]

theorem live_of_stored {n : Node} (h : t.stored c k = some n) : c.Live (t.name.nodeKey k) :=
  ⟨_, record_of_stored h, n.encode_ne_nil⟩

namespace Sole

/-- The records with a value are those of the nodes that can be reached. -/
theorem live_iff (h : t.Sole c m x) :
    c.Live (t.name.nodeKey k) ↔ (t.stored c).Reaches x.root k := by
  rw [h.holds.stands.reaches_iff]
  constructor
  · intro hlive
    by_contra hk
    exact h.bare k hk hlive
  · intro hk
    obtain ⟨n, hn⟩ := h.holds.stands.links.isSome hk
    exact live_of_stored hn

/-- The record of a key of the tree is that of its node. -/
theorem record_eq (h : t.Sole c m x) (hk : k ∈ x.keys) :
    ∃ l p r, x.subtree k = .node l k p r ∧ m[k]? = some p ∧
      ∃ height : UInt32, height.toNat = (Avl.node l k p r).height ∧
        c (t.name.nodeKey k) =
          some (Node.encode { payload := p, left := l.root, right := r.root, height }) := by
  obtain ⟨l, p, r, hsub⟩ := Avl.subtree_of_mem h.holds.ordered hk
  have hstands := h.holds.stands.subtree k
  rw [hsub] at hstands
  obtain ⟨⟨height, hn, hheight⟩, -, -⟩ := hstands
  have hentry := h.holds.stands.mem_entries hk hn
  exact ⟨l, p, r, hsub, (h.mem_entries k p).mp hentry, height, hheight, record_of_stored hn⟩

/-- A flush leaves no records with a value beside those of the changed tree. -/
theorem bare_flush (h : t.Sole c m x) (htombs : t.tombstones = true) {change : Change}
    {s : Session} (hs : t.Regrown c x' s) (hremoved : s.removed = change.removed)
    (hx : change.grow x = some x') (hk : k ∉ x'.keys) :
    ¬ (c.write (flushPuts t s x.root x'.root)).Live (t.name.nodeKey k) := by
  rintro ⟨record, hrecord, hne⟩
  by_cases hk' : k ∈ s.removed
  · rw [write_flush_removed htombs _ _ hk'] at hrecord
    cases hrecord
    exact hne rfl
  · have hdirty : k ∉ s.dirty := fun hd => hk (hs.mem_keys k hd)
    rw [write_flush_of_notMem c _ _ hdirty hk'] at hrecord
    refine h.bare k (fun hkx => ?_) ⟨record, hrecord, hne⟩
    rw [hremoved] at hk'
    have hkeys := Change.mem_keys_grow h.holds.ordered h.holds.balanced hx k
    exact (hkeys.2.1 hkx).elim hk hk'

/-! ## Changes of the tree -/

/-- A change leaves no records with a value beside those of the changed tree. -/
theorem serve (h : t.Sole c m x) (hreach : Avl.maxHeight ≤ t.reach)
    (htombs : t.tombstones = true) {change : Change} (hfits : change.Fits) :
    ∃ reply puts x', (change.serve t).eval c = (reply, puts) ∧
      t.Sole (c.write puts) (Change.served m [(change, reply)]) x' := by
  rcases h.holds.valid_or with hvalid | ⟨failure, hroot⟩
  · have hentries := change.mem_entries_apply h.holds.ordered h.holds.balanced h.mem_entries
    cases hx : change.grow x with
    | none =>
        rw [hx] at hentries
        exact ⟨_, [], x, Change.serve_eval_of_none hvalid hreach hx, h.holds, hentries, h.bare⟩
    | some x' =>
        rw [hx] at hentries
        obtain ⟨s, heval, hs, hremoved, hholds⟩ := Change.session_holds hvalid hreach hfits hx
        exact ⟨_, _, x', heval, hholds, hentries, fun k hk =>
          h.bare_flush htombs hs hremoved hx hk⟩
  · exact ⟨_, [], x, change.serve_eval_of_error hroot, h⟩

/-- So do changes, one after the other. -/
theorem onEach {σ : Type} [ByteStore σ] [ReliableStore σ] (hreach : Avl.maxHeight ≤ t.reach)
    (htombs : t.tombstones = true) {changes : List Change}
    (hfits : ∀ change ∈ changes, change.Fits) {store : σ} (hstore : Sound store)
    (h : t.Sole (contents store) m x) {replies : List (Except Failure Bool)} {after : σ}
    (hserve : Access.onEach (changes.map (Change.serve t)) store = (replies, after)) :
    ∃ x', t.Sole (contents after) (Change.served m (changes.zip replies)) x' := by
  induction changes generalizing store m x replies with
  | nil =>
      cases hserve
      exact ⟨x, h⟩
  | cons change changes ih =>
      obtain ⟨store', hon, hstore', hcontents, -⟩ := (change.serve t).on_eq_eval hstore
      obtain ⟨reply, puts, x', heval, h'⟩ := h.serve hreach htombs (hfits change (.head _))
      rw [heval] at hon hcontents
      rw [← hcontents] at h'
      obtain ⟨⟨rest, last⟩, hrest⟩ :
          ∃ p, Access.onEach (changes.map (Change.serve t)) store' = p := ⟨_, rfl⟩
      rw [List.map_cons, Access.onEach, hon] at hserve
      simp only [hrest] at hserve
      cases hserve
      have hfits' : ∀ change ∈ changes, change.Fits := fun change hchange =>
        hfits change (.tail _ hchange)
      obtain ⟨x'', h''⟩ := ih hfits' hstore' h' hrest
      refine ⟨x'', ?_⟩
      cases reply with
      | ok done => exact h''
      | error failure => exact h''

end Sole

end Tree

/-- After any changes of a tree with tombstones, in a store that was empty at first and does not
fail, the records of nodes that have a value are those of the nodes that can be reached from the
root.  They are the records of a balanced search tree with the entries that were inserted and
not deleted: each has the payload of its key, the pointers to its subtrees, and the height. -/
theorem live_records_reached {σ : Type} [ByteStore σ] [ReliableStore σ] (name : TreeName)
    {store : σ} (hstore : Sound store) (hempty : ∀ key, contents store key = none)
    {changes : List Change} (hfits : ∀ change ∈ changes, change.Fits) :
    let t := name.tree true
    let run := Access.onEach (changes.map (Change.serve t)) store
    let c := contents run.2
    let m := Change.served ∅ (changes.zip run.1)
    ∃ x : Avl, t.PointsTo c x.root ∧ x.Ordered ∧ x.Balanced ∧ x.entries = m.toList ∧
      (∀ k, c.Live (name.nodeKey k) ↔ (t.stored c).Reaches x.root k) ∧
      ∀ k, (t.stored c).Reaches x.root k →
        ∃ l p r, x.subtree k = .node l k p r ∧ m[k]? = some p ∧
          ∃ height : UInt32, height.toNat = (Avl.node l k p r).height ∧
            c (name.nodeKey k) =
              some (Node.encode { payload := p, left := l.root, right := r.root, height }) := by
  intro t run c m
  have hnone : t.Sole (contents store) ∅ .nil := by
    refine ⟨Tree.holds_nil (.inl (hempty _)), by simp, ?_⟩
    rintro k - ⟨record, hrecord, -⟩
    rw [hempty] at hrecord
    cases hrecord
  obtain ⟨x, hx⟩ := hnone.onEach (name.maxHeight_le_reach true) rfl hfits hstore rfl
  refine ⟨x, hx.holds.points, hx.holds.ordered, hx.holds.balanced,
    Avl.entries_eq_toList hx.holds.ordered hx.mem_entries, fun k => hx.live_iff, fun k hk => ?_⟩
  exact hx.record_eq (hx.holds.stands.reaches_iff.mp hk)

namespace Live

/-- Four nodes are inserted.  The one on top and a leaf are deleted, and the leaf is inserted
again. -/
def changes : List Change :=
  [.insert (.ofCount 2) "b", .insert (.ofCount 1) "a", .insert (.ofCount 4) "d",
    .insert (.ofCount 3) "c", .delete (.ofCount 2), .delete (.ofCount 1),
    .insert (.ofCount 1) "again"]

/-- What these changes leave in an empty store. -/
def store : MemoryStore := (Access.onEach (changes.map (Change.serve (TreeName.t.tree true))) {}).2

end Live

/-- Three records have a value then. -/
theorem live_records_reached_memory :
    ∃ x : Avl, x.entries = [(.ofCount 1, "again"), (.ofCount 3, "c"), (.ofCount 4, "d")] ∧
      ∀ k, (contents Live.store).Live (TreeName.t.nodeKey k) ↔
        ((TreeName.t.tree true).stored (contents Live.store)).Reaches x.root k := by
  have hempty : ∀ key, contents ({} : MemoryStore) key = none := by simp [contents]
  have hrep : ∀ change ∈ Live.changes, change.Representable := by decide
  obtain ⟨x, -, -, -, hentries, hlive, -⟩ := live_records_reached (σ := MemoryStore) .t trivial
    hempty fun change hchange => (hrep change hchange).fits
  rw [Live.store]
  refine ⟨x, ?_, hlive⟩
  rw [hentries]
  decide +kernel

end Leaderboard
