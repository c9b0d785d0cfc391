import Leaderboard.Proofs.Store.Recording
import Leaderboard.Proofs.Tree.Mixture
import Leaderboard.Proofs.Tree.Torn

/-!
# Searches after a change broke off

A change writes its nodes in the order of their keys.  If it breaks off at a node then
the records are a `Mixture` of the trees before and after it, where the low nodes are
those below that node.  A rotation that is cut in two leaves two nodes that point to
each other, and a search that comes between them never ends
(`interrupted_rotation_hangs`).

`Change.Crosses` says that the change has cut two nodes about a key so.  If it has
not, then a search of the key ends, and so do an insert and a delete
(`interrupted_change_stops`).
-/

namespace Leaderboard

open ReliableStore (Sound contents)

theorem RankKey.turn_eq_left {key here : RankKey} : key.turn here = some .left ↔ key < here := by
  rw [turn, ← compare_lt]
  cases compare key here <;> simp

theorem RankKey.turn_eq_right {key here : RankKey} :
    key.turn here = some .right ↔ here < key := by
  rw [turn, ← compare_gt]
  cases compare key here <;> simp

namespace Change

/-- A change that breaks off after some puts cuts two nodes about a key.  The put that fails is
that of a node, and only one of the two comes before it.  The other one is above that
one before the change, and below it after. -/
def Crosses (change : Change) (t : Tree) (c : Contents) (x : Avl) (puts : Nat) (key : RankKey) :
    Prop :=
  ∃ x' u record, change.grow x = some x' ∧
    ((change.serve t).eval c).2[puts]? = some (t.name.nodeKey u, record) ∧ record ≠ [] ∧
    ∃ a b, a < u ∧ u ≤ b ∧ a < key ∧ key < b ∧
      a ∈ (x.subtree b).keys ∧ b ∈ (x'.subtree a).keys

end Change

open Session (flushPuts)

namespace Tree

variable {t : Tree} {c : Contents} {s : Session} {x x' : Avl}

/-- A key is low if it is below the first marked one that has not been written. -/
def Low (s : Session) (count : Nat) (k : RankKey) : Prop := ∀ u ∈ s.dirty[count]?, k < u

/-- The first marked nodes are the low ones. -/
theorem mem_take_dirty (hs : t.Regrown c x s) {count : Nat} {k : RankKey} :
    k ∈ s.dirty.take count ↔ k ∈ s.dirty ∧ Low s count k := by
  have hsorted := hs.sorted
  rw [← List.take_append_drop count s.dirty, List.pairwise_append] at hsorted
  obtain ⟨-, hdrop, hlt⟩ := hsorted
  constructor
  · refine fun hk => ⟨List.mem_of_mem_take hk, fun u hu => hlt k hk u ?_⟩
    rw [← List.head?_drop] at hu
    exact List.mem_of_mem_head? hu
  · rintro ⟨hk, hlow⟩
    rw [← List.take_append_drop count s.dirty, List.mem_append] at hk
    refine hk.resolve_right fun hk => ?_
    -- the first node that is not written is not above one that is not written
    cases hrest : s.dirty.drop count with
    | nil =>
        rw [hrest] at hk
        cases hk
    | cons u rest =>
        have hu : s.dirty[count]? = some u := by
          rw [← List.head?_drop, hrest, List.head?_cons]
        have hku := hlow u hu
        rw [hrest] at hk hdrop
        rcases List.mem_cons.mp hk with rfl | hk
        · exact RankKey.lt_irrefl k hku
        · exact RankKey.lt_irrefl k (RankKey.lt_trans hku ((List.pairwise_cons.mp hdrop).1 k hk))

/-- After the first puts of a flush the records are a mixture of two trees. -/
theorem mixture_take_flush (h : t.Valid c x) (hs : t.Regrown c x' s) (ho : x'.Ordered)
    (hb : x'.Balanced) (hremoved : ∀ k ∈ x'.keys, k ∉ s.removed)
    (hfresh : ∀ k ∈ x'.keys, k ∉ x.keys → t.stored c k = none) (count : Nat) :
    Mixture (t.stored (c.write ((flushPuts t s x.root x'.root).take count))) (t.stored c)
      (s.sees t c) x x' (Low s count) where
  low_of_lt hab hlow u hu := RankKey.lt_trans hab (hlow u hu)
  stands := h.1.stands
  ordered := h.1.ordered
  height_le := Avl.height_le_maxHeight h.1.balanced h.1.ordered.nodup
  stands' := hs.stands
  ordered' := ho
  height_le' := Avl.height_le_maxHeight hb ho.nodup
  new_eq k hk hlow := by
    rw [stored_take_of_notMem_removed hs.sound _ _ _ (hremoved k hk)]
    split
    next => rfl
    next hnot =>
      refine (sees_of_notMem_dirty hs.sound fun hd => hnot ?_).symm
      exact (mem_take_dirty hs).mpr ⟨hd, hlow⟩
  old_eq k hk hhigh := by
    by_cases hkr : k ∈ s.removed
    · cases hn : t.stored (c.write ((flushPuts t s x.root x'.root).take count)) k with
      | none => exact .inr rfl
      | some n =>
          refine .inl ?_
          rcases stored_take_flush hs.sound _ _ _ hn with h | ⟨hd, -⟩
          · exact h.symm
          · exact absurd hkr (hremoved k (hs.mem_keys k hd))
    · rw [stored_take_of_notMem_removed hs.sound _ _ _ hkr, if_neg]
      · exact .inl rfl
      · intro htake
        obtain ⟨hd, hlow⟩ := (mem_take_dirty hs).mp htake
        exact hhigh hlow (hs.mem_keys k hd)
  none_eq k hk hold hhigh := by
    rw [stored_take_of_notMem_removed hs.sound _ _ _ (hremoved k hk), if_neg]
    · exact hfresh k hk hold
    · exact fun htake => hhigh ((mem_take_dirty hs).mp htake).2

/-- In a mixture all operations end whose ways meet no nodes that have changed sides. -/
theorem passable_of_mixture {c' : Contents} {old new : Memory} {P : RankKey → Prop}
    (h : Mixture (t.stored c') old new x x' P) {key : RankKey}
    (hparted : Mixture.Parted x x' P key.turn) (hreach : Mixture.depth ≤ t.reach)
    (hroot : ∀ k, t.PointsTo c' (some k) → k ∈ x.keys ∨ k ∈ x'.keys) :
    t.Passable c' key fun k => k ∈ x.keys ∨ k ∈ x'.keys where
  closed _ _ _ _ hk hn hj := h.child_mem_keys hk hn hj
  ends k hk := (h.ends hparted hk).mono hreach
  ends_left k hk := (h.ends (fun a b _ hright => by cases hright) hk).mono hreach
  root := hroot

end Tree

/-- After a change that broke off, operations at a key about which it has cut no nodes end. -/
theorem Change.passable_take {t : Tree} {c : Contents} {x : Avl} (h : t.Valid c x)
    (hreach : Mixture.depth ≤ t.reach) {change : Change} (hfits : change.Fits)
    (hfresh : change.key ∉ x.keys → t.stored c change.key = none) {puts : Nat} {key : RankKey}
    (hcross : ¬ change.Crosses t c x puts key) :
    ∃ K, t.Passable (c.write (((change.serve t).eval c).2.take puts)) key K := by
  have hheight : Avl.maxHeight ≤ t.reach := Nat.le_trans (by decide) hreach
  cases hx : change.grow x with
  | none =>
      have hle := Avl.height_le_maxHeight h.1.balanced h.1.ordered.nodup
      have hmixture : Mixture (t.stored c) (t.stored c) (t.stored c) x x fun _ => True :=
        ⟨fun _ _ => trivial, h.1.stands, h.1.ordered, hle, h.1.stands, h.1.ordered, hle,
          fun _ _ _ => rfl, fun _ _ _ => .inl rfl, fun _ hk hold => absurd hk hold⟩
      rw [change.serve_eval_of_none h hheight hx, List.take_nil]
      refine ⟨_, Tree.passable_of_mixture hmixture (fun a b _ _ hhigh => absurd trivial hhigh)
        hreach fun k hk => .inl (Avl.root_mem_keys (h.1.points.unique hk))⟩
  | some x' =>
      obtain ⟨s, heval, hs, hremoved⟩ := change.session h hheight hfits hx
      obtain ⟨ho, hb⟩ := change.ordered_grow h.1.ordered h.1.balanced hx
      have hkeys := change.mem_keys_grow h.1.ordered h.1.balanced hx
      have hmixture := Tree.mixture_take_flush h hs ho hb
        (fun k hk => hremoved ▸ (hkeys k).2.2 hk)
        (fun k hk hold => by
          obtain rfl := ((hkeys k).1 hk).resolve_left hold
          exact hfresh hold) puts
      rw [heval]
      refine ⟨_, Tree.passable_of_mixture hmixture (fun a b hlow hright hhigh hleft ha hb => ?_)
        hreach fun k hk => ?_⟩
      · obtain ⟨u, hu, hub⟩ : ∃ u, s.dirty[puts]? = some u ∧ ¬ b < u := by
          simpa [Tree.Low] using hhigh
        obtain ⟨n, hput⟩ := Tree.getElem?_flushPuts hs.sound x.root x'.root hu
        refine hcross ⟨x', u, n.encode, hx, ?_, n.encode_ne_nil, a, b, hlow u hu, ?_,
          RankKey.turn_eq_right.mp hright, RankKey.turn_eq_left.mp hleft, ha, hb⟩
        · rw [heval]
          exact hput
        · rw [RankKey.lt_iff] at hub
          rw [RankKey.le_iff]
          omega
      · exact (Tree.pointsTo_take_flush h.1.points puts hk).imp
          (fun h => Avl.root_mem_keys h.symm) fun h => Avl.root_mem_keys h.symm

/-- After a change of a valid tree broke off, a search, an insert and a delete stop at every key
about which the change has cut no two nodes, and come to an end before they have gone
down `Mixture.depth` nodes. -/
theorem interrupted_change_stops {σ : Type} [ByteStore σ] [ReliableStore σ] {t : Tree}
    (hreach : Mixture.depth ≤ t.reach) {store : σ} (hstore : Sound store) {x : Avl}
    (hvalid : t.Valid (contents store) x) {change : Change} (hfits : change.Fits)
    (hfresh : change.key ∉ x.keys → t.stored (contents store) change.key = none) (puts : Nat)
    (key : RankKey) (hcross : ¬ change.Crosses t (contents store) x puts key) :
    let torn := (change.serve t).interrupted puts store
    ∀ failure : Failure, failure.Endless → ((t.search key).on torn).1 ≠ .error failure ∧
      (∀ payload, ((t.insert key payload).on torn).1 ≠ .error failure) ∧
      ((t.delete key).on torn).1 ≠ .error failure := by
  intro torn failure hendless
  obtain ⟨htorn, hcontents⟩ := Access.interrupted_eq (change.givesUp_serve t) hstore puts
  obtain ⟨K, hK⟩ := change.passable_take hvalid hreach hfits hfresh hcross
  rw [← hcontents] at hK
  refine ⟨fun h => ?_, fun payload h => ?_, fun h => ?_⟩
  · rw [Access.on_fst _ htorn] at h
    exact hK.search_stops failure h hendless
  · rw [Access.on_fst _ htorn] at h
    exact hK.insert_stops payload failure h hendless
  · rw [Access.on_fst _ htorn] at h
    exact hK.delete_stops failure h hendless

/-! ## A rotation cut in two -/

/-- A search that comes from each of some nodes to another of them goes on as far as it may. -/
theorem Tree.searchFrom_hangs {t : Tree} {c : Contents} {key : RankKey} {K : RankKey → Prop}
    (h : ∀ k, K k → ∃ n side j, t.stored c k = some n ∧ key.turn k = some side ∧
      n.child side = some j ∧ K j) (fuel : Nat) {k : RankKey} (hk : K k) :
    (t.searchFrom key fuel (some k)).eval c = (.error t.endless, []) := by
  induction fuel generalizing k with
  | zero => rfl
  | succ fuel ih =>
      obtain ⟨n, side, j, hn, hturn, hchild, hj⟩ := h k hk
      rw [searchFrom, Access.eval_bind_read (load_eval hn)]
      cases side with
      | left =>
          rw [RankKey.compare_lt.mpr (RankKey.turn_eq_left.mp hturn),
            show n.left = some j from hchild]
          exact ih hj
      | right =>
          rw [RankKey.compare_gt.mpr (RankKey.turn_eq_right.mp hturn),
            show n.right = some j from hchild]
          exact ih hj

namespace Cut

/-- The name of the tree. -/
def name : TreeName := .t

/-- The key of a count. -/
def key (count : Int64) : RankKey := .make count 0 .newerFirst

/-- The top of the tree and its left child. -/
def tree : Avl := .node (.node .nil (key 2) "b" .nil) (key 3) "c" .nil

/-- A store with the two nodes. -/
def store : MemoryStore :=
  (Access.onEach ([Change.insert (key 3) "c", .insert (key 2) "b"].map
    (Change.serve (name.tree true))) {}).2

/-- The insert of a third node, which puts the left child on top. -/
def last : Change := .insert (key 1) "a"

/-- What the insert leaves if it breaks off before the node that was on top. -/
def torn : MemoryStore := (last.serve (name.tree true)).interrupted 2 store

theorem valid : (name.tree true).Valid (contents store) tree := by
  refine ⟨⟨?_, ⟨⟨2, ?_, rfl⟩, ⟨⟨1, ?_, rfl⟩, trivial, trivial⟩, trivial⟩, ?_, ?_⟩, ?_⟩
  · show (contents store) name.rootKey = some (key 3).encode
    decide +kernel
  · decide +kernel
  · decide +kernel
  · show [key 2, key 3].Pairwise (· < ·)
    decide +kernel
  · simp [Avl.Balanced, tree]
  · intro k hk
    cases hk
    rfl

/-- The left child has got the node that was on top. -/
theorem stored_child : (name.tree true).stored (contents torn) (key 2) =
    some { payload := "b", left := key 1, right := key 3, height := 2 } := by
  decide +kernel

/-- The node that was on top still has the left child. -/
theorem stored_top : (name.tree true).stored (contents torn) (key 3) =
    some { payload := "c", left := key 2, height := 2 } := by
  decide +kernel

/-- A key between the two. -/
def between : RankKey := .make 2 5 .newerFirst

theorem search_torn (n : Nat) :
    (Tree.search { name, reach := n } between).eval (contents torn) =
      (.error (.integrity (.endless "t" n)), []) := by
  have hroot : Tree.PointsTo { name, reach := n } (contents torn) (some (key 3)) := by
    show contents torn name.rootKey = some (key 3).encode
    decide +kernel
  have hmade : ∀ k ∈ (some (key 3) : NodeRef), k.Made := by
    intro k hk
    cases hk
    rfl
  rw [Tree.search, Access.eval_bind_read (Tree.root_eval hroot hmade)]
  have hstored : Tree.stored { name, reach := n } = (name.tree true).stored := rfl
  refine Tree.searchFrom_hangs (K := fun k => k = key 2 ∨ k = key 3) ?_ n (.inr rfl)
  rw [hstored]
  rintro k (rfl | rfl)
  · exact ⟨_, .right, key 3, stored_child, by decide +kernel, rfl, .inr rfl⟩
  · exact ⟨_, .left, key 2, stored_top, by decide +kernel, rfl, .inl rfl⟩

end Cut

/-- A rotation that breaks off between its two nodes leaves a valid tree in such a state that a
search between the two does not come to an end, however far it goes. -/
theorem interrupted_rotation_hangs :
    (Cut.name.tree true).Valid (contents Cut.store) Cut.tree ∧
      ∀ n, ((Tree.search { name := Cut.name, reach := n } Cut.between).on
        ((Cut.last.serve (Cut.name.tree true)).interrupted 2 Cut.store)).1 =
          .error (.integrity (.endless "t" n)) := by
  refine ⟨Cut.valid, fun n => ?_⟩
  rw [Access.on_fst _ trivial]
  exact congrArg Prod.fst (Cut.search_torn n)

/-- After the same insert an operation at the left child ends: there is no node on its left. -/
theorem interrupted_change_stops_cut :
    ¬ Cut.last.Crosses (Cut.name.tree true) (contents Cut.store) Cut.tree 2 (Cut.key 2) ∧
      ∀ failure : Failure, failure.Endless →
        (((Cut.name.tree true).search (Cut.key 2)).on Cut.torn).1 ≠ .error failure ∧
          (∀ payload, (((Cut.name.tree true).insert (Cut.key 2) payload).on Cut.torn).1 ≠
            .error failure) ∧
          (((Cut.name.tree true).delete (Cut.key 2)).on Cut.torn).1 ≠ .error failure := by
  have hcross : ¬ Cut.last.Crosses (Cut.name.tree true) (contents Cut.store) Cut.tree 2
      (Cut.key 2) := by
    rintro ⟨x', u, record, -, -, -, a, b, -, -, hlt, -, ha, -⟩
    have hmem : a ∈ [Cut.key 2, Cut.key 3] := Avl.mem_keys_of_subtree ha
    rw [List.mem_cons, List.mem_singleton] at hmem
    rcases hmem with rfl | rfl
    · exact RankKey.lt_irrefl _ hlt
    · exact absurd hlt (by decide +kernel)
  have hfits : Cut.last.Fits := by decide
  exact ⟨hcross, interrupted_change_stops (by decide) trivial Cut.valid hfits
    (fun _ => by decide +kernel) 2 (Cut.key 2) hcross⟩

end Leaderboard
