import Leaderboard.Proofs.Tree.Audit
import Leaderboard.Proofs.Tree.Crossing
import Leaderboard.Proofs.Tree.Survival

/-!
# Walks list the tree

A tree that passes an audit has its entries in one order, that of its keys.  Walks tell
them in this order or backward, one with every call, and then that there are no more
(`walks_list_tree`).  A tree of fewer than 2 ^ 64 nodes is never too high for that, since
a balanced tree of height 129 has more (`Avl.height_le_maxDepth`).
-/

namespace Leaderboard

open ReliableStore (Sound contents)

/-- A memory spells one tree at most below a pointer. -/
theorem Avl.Stands.unique {m : Memory} {x y : Avl} (hx : x.Stands m) (hy : y.Stands m)
    (hroot : x.root = y.root) : x = y := by
  induction x generalizing y with
  | nil =>
      cases y with
      | nil => rfl
      | node l k p r => cases hroot
  | node l k p r ihl ihr =>
      cases y with
      | nil => cases hroot
      | node l' k' p' r' =>
          obtain rfl : k = k' := Option.some.inj hroot
          obtain ⟨⟨height, hn, -⟩, hl, hr⟩ := hx
          obtain ⟨⟨height', hn', -⟩, hl', hr'⟩ := hy
          obtain ⟨rfl, hleft, hright, -⟩ : p = p' ∧ l.root = l'.root ∧ r.root = r'.root ∧
              height = height' := by simpa using hn.symm.trans hn'
          rw [ihl hl hl' hleft, ihr hr hr' hright]

/-- Contents hold one tree at most. -/
theorem Tree.Holds.unique {t : Tree} {c : Contents} {x y : Avl} (hx : t.Holds c x)
    (hy : t.Holds c y) : x = y :=
  hx.stands.unique hy.stands (hx.points.unique hy.points)

namespace Walk

variable {t : Tree} {c : Contents}

/-- Each call replies with the entry whose turn it is, and past the end with none. -/
theorem calls_eval {w : Walk} {ps : List Placement} (h : Ahead t c w ps) (n : Nat) :
    ∃ w', Dialogue.eval ((calls t n).run w) c =
      (((List.range n).map fun i => .ok ps[i]?, w'), []) := by
  induction n generalizing w ps with
  | zero => exact ⟨w, rfl⟩
  | succ n ih =>
      obtain ⟨w₁, hnext, hahead⟩ := next_gives h
      obtain ⟨w₂, hcalls⟩ := ih hahead
      have hreplies : ((List.range (n + 1)).map fun i => Except.ok (ε := Failure) ps[i]?) =
          .ok ps.head? :: (List.range n).map fun i => .ok ps.tail[i]? := by
        cases ps <;> simp [List.range_succ_eq_map, Function.comp_def]
      exact ⟨w₂, hreplies ▸ calls_succ_eval hnext hcalls⟩

end Walk

/-- If an audit counts fewer than 2 ^ 64 nodes, then the entries of the tree have increasing
keys, walks tell them upward and downward and then tell that there are no more, and the entries
at the top are the first ones downward. -/
theorem walks_list_tree {σ : Type} [ByteStore σ] [ReliableStore σ] (t : Tree) {store : σ}
    (hsound : Sound store) {stats : TreeStats} (haudit : (t.validate.on store).1 = .ok stats)
    (hsize : stats.nodes < 2 ^ 64) :
    ∃ x, t.Valid (contents store) x ∧ x.entries.length = stats.nodes ∧
      (x.entries.map Prod.fst).Pairwise (· < ·) ∧
      (∀ n, (((Walk.calls t n).run { order := .ascending }).run store).1.1 =
        (List.range n).map fun i => .ok x.entries[i]?) ∧
      (∀ n, (((Walk.calls t n).run { order := .descending }).run store).1.1 =
        (List.range n).map fun i => .ok x.entries.reverse[i]?) ∧
      (∀ n, ((t.topEntries n).on store).1 = .ok (x.entries.reverse.take n)) ∧
      ∀ n, ((t.top n).on store).1 = .ok ((x.entries.reverse.take n).map Prod.snd) := by
  rw [Access.on_fst _ hsound] at haudit
  obtain ⟨x, hvalid, rfl⟩ := Tree.valid_of_validate haudit
  have hheight : x.height ≤ Walk.maxDepth := Avl.height_le_maxDepth hvalid.1.balanced hsize
  have hcalls : ∀ order n, (((Walk.calls t n).run { order }).run store).1.1 =
      (List.range n).map fun i => .ok (x.visit order)[i]? := by
    intro order n
    obtain ⟨w, heval⟩ := Walk.calls_eval (Walk.ahead_new hvalid hheight order) n
    obtain ⟨store', hrun, -⟩ := Dialogue.run_eq_eval ((Walk.calls t n).run { order }) hsound
    rw [hrun, heval]
  refine ⟨x, hvalid, rfl, hvalid.1.ordered, hcalls .ascending, hcalls .descending,
    fun n => ?_, fun n => ?_⟩
  · rw [Access.on_fst _ hsound, Tree.topEntries_eval hvalid hheight]
  · rw [Access.on_fst _ hsound, Tree.top_eval hvalid hheight]

/-- The two nodes of `Cut.store`, upward and downward, and then no more. -/
theorem walks_list_tree_pair :
    (((Walk.calls (Cut.name.tree true) 4).run { order := .ascending }).run Cut.store).1.1 =
        [.ok (some (Cut.key 2, "b")), .ok (some (Cut.key 3, "c")), .ok none, .ok none] ∧
      (((Walk.calls (Cut.name.tree true) 3).run { order := .descending }).run Cut.store).1.1 =
        [.ok (some (Cut.key 3, "c")), .ok (some (Cut.key 2, "b")), .ok none] ∧
      (((Cut.name.tree true).top 1).on Cut.store).1 = .ok ["c"] := by
  have haudit : ((Cut.name.tree true).validate.on Cut.store).1 =
      .ok { nodes := 2, height := 2 } := by
    rw [Access.on_fst _ trivial, Tree.validate_eval Cut.valid]
    rfl
  obtain ⟨x, hvalid, -, -, hup, hdown, -, htop⟩ :=
    walks_list_tree (Cut.name.tree true) trivial haudit (by decide)
  obtain rfl : x = Cut.tree := hvalid.1.unique Cut.valid.1
  exact ⟨hup 4, hdown 3, htop 1⟩

end Leaderboard
