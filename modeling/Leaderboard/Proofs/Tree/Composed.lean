import Leaderboard.Proofs.Tree.Rebalance
import Leaderboard.Tree.Update
import Leaderboard.Tree.Walk

/-!
# What the operations of a tree are put together from

What comes before the flush of an insert or a delete is put together from five actions
of a session: reading a node, marking one as changed, taking one out, failing, and going
on after an action.  So a property of actions that holds of these, and of two actions in
sequence if it holds of both, holds of the whole (`DescentClosed.inserting`,
`DescentClosed.deleting`).  Only the ways down follow pointers without end, so all other
actions have the property even if `Tree.endless` does not (`SessionClosed.rebuild`).

In the same way the flush is put together from puts (`WriteClosed.conclude`), and a walk
from reads of nodes and of the pointer to the root (`WalkClosed.next`).
-/

namespace Leaderboard

namespace Tree

/-! ## The parts of a change -/

/-- What follows the way to the next node in `Tree.splice`. -/
def relink (t : Tree) (left right : RankKey) (path : Path) :
    List RankKey × RankKey → SessionM (Path × NodeRef)
  | ([], next) => do
      t.setChild next .left (some left)
      pure (path, some (← t.rebalance next))
  | (passed, next) => do
      let orphan := (← t.fetch next).right
      t.setChild next .left (some left)
      t.setChild next .right (some right)
      pure (passed.map (·, Side.left) ++ (next, .right) :: path, orphan)

theorem splice_eq (t : Tree) {target : Node} {left right : RankKey} (hl : target.left = some left)
    (hr : target.right = some right) (path : Path) :
    t.splice target path = t.leftmost t.reach right [] >>= t.relink left right path := by
  rw [splice, hl, hr]
  refine congrArg (t.leftmost t.reach right [] >>= ·) (funext fun place => ?_)
  obtain ⟨passed, next⟩ := place
  cases passed <;> rfl

/-- The part of an insert that comes before the flush. -/
def inserting (t : Tree) (key : RankKey) (payload : String) (root : NodeRef) :
    SessionM (Option NodeRef) := do
  match ← t.descend key t.reach root [] with
  | (_, some _) => pure none
  | (path, none) =>
      store key (Node.leaf payload)
      some <$> t.rebuild path (some key)

/-- The part of a delete that comes before the flush. -/
def deleting (t : Tree) (key : RankKey) (root : NodeRef) : SessionM (Option NodeRef) := do
  match ← t.descend key t.reach root [] with
  | (_, none) => pure none
  | (path, some target) =>
      let (path, replacement) ← t.splice target path
      discard key
      some <$> t.rebuild path replacement

/-- Writes a session back if it has changed the tree. -/
def conclude (t : Tree) (root : NodeRef) : Option NodeRef × Session → Access Bool
  | (none, _) => pure false
  | (some newRoot, s) => do
      t.flush s root newRoot
      pure true

theorem insert_eq (t : Tree) (key : RankKey) (payload : String) :
    t.insert key payload = (do
      let root ← t.root
      t.conclude root (← (t.inserting key payload root).run {})) := rfl

theorem delete_eq (t : Tree) (key : RankKey) :
    t.delete key = (do
      let root ← t.root
      t.conclude root (← (t.deleting key root).run {})) := rfl

/-! ## Actions of a session -/

/-- A property of actions holds of the elementary ones, and of two in sequence if it holds of
both. -/
structure SessionClosed (t : Tree) (P : (α : Type) → SessionM α → Prop) : Prop where
  /-- It holds of an answer, -/
  pure : ∀ {α : Type} (a : α), P α (pure a)
  /-- of two actions in sequence, -/
  bind : ∀ {α β : Type} {m : SessionM α} {f : α → SessionM β},
    P α m → (∀ a, P β (f a)) → P β (m >>= f)
  /-- of reading a node, -/
  fetch : ∀ key, P Node (t.fetch key)
  /-- of changing one, -/
  store : ∀ key node, P Unit (store key node)
  /-- of taking one out, -/
  discard : ∀ key, P Unit (discard key)
  /-- and of failing, if not as an endless loop does. -/
  fault : ∀ {α : Type} {fault : TreeFault}, (∀ name steps, fault ≠ .endless name steps) →
    P α (throw (.integrity fault))

namespace SessionClosed

variable {t : Tree} {P : (α : Type) → SessionM α → Prop}

theorem map (h : t.SessionClosed P) {α β : Type} {m : SessionM α} (hm : P α m) (g : α → β) :
    P β (g <$> m) := by
  rw [map_eq_pure_bind]
  exact h.bind hm fun a => h.pure _

theorem setChild (h : t.SessionClosed P) (parent : RankKey) (side : Side) (child : NodeRef) :
    P Unit (t.setChild parent side child) := by
  refine h.bind (h.fetch parent) fun node => ?_
  split
  · exact h.store _ _
  · exact h.pure _

theorem height (h : t.SessionClosed P) (ref : NodeRef) : P UInt32 (t.height ref) := by
  cases ref with
  | none => exact h.pure _
  | some key => exact h.bind (h.fetch key) fun node => h.pure _

theorem childHeights (h : t.SessionClosed P) (key : RankKey) :
    P (UInt32 × UInt32) (t.childHeights key) :=
  h.bind (h.fetch key) fun node => h.bind (h.height node.left) fun _ =>
    h.bind (h.height node.right) fun _ => h.pure _

theorem balance (h : t.SessionClosed P) (key : RankKey) : P Int (t.balance key) :=
  h.bind (h.childHeights key) fun _ => h.pure _

theorem updateHeight (h : t.SessionClosed P) (key : RankKey) : P Unit (t.updateHeight key) := by
  refine h.bind (h.childHeights key) fun heights => h.bind (h.fetch key) fun node => ?_
  split
  · exact h.store _ _
  · exact h.pure _

theorem childOrFault (h : t.SessionClosed P) (key : RankKey) (side : Side) {fault : TreeFault}
    (hfault : ∀ name steps, fault ≠ .endless name steps) :
    P RankKey (t.childOrFault key side fault) := by
  refine h.bind (h.fetch key) fun node => ?_
  split
  · exact h.pure _
  · exact h.fault hfault

theorem turn (h : t.SessionClosed P) (side : Side) (key : RankKey) :
    P RankKey (t.turn side key) :=
  h.bind (h.childOrFault key side (by cases side <;> nofun)) fun pivot =>
    h.bind (h.fetch pivot) fun _ => h.bind (h.setChild _ _ _) fun _ =>
      h.bind (h.setChild _ _ _) fun _ => h.bind (h.updateHeight key) fun _ =>
        h.bind (h.updateHeight pivot) fun _ => h.pure _

theorem lower (h : t.SessionClosed P) (side : Side) (key : RankKey) :
    P RankKey (t.lower side key) := by
  refine h.bind (h.childOrFault key side (by cases side <;> nofun)) fun child =>
    h.bind (h.balance child) fun difference => ?_
  split
  · exact h.bind (h.turn _ _) fun _ => h.bind (h.setChild _ _ _) fun _ => h.turn _ _
  · exact h.turn _ _

theorem rebalance (h : t.SessionClosed P) (key : RankKey) : P RankKey (t.rebalance key) := by
  rw [rebalance_eq]
  refine h.bind (h.updateHeight key) fun _ => h.bind (h.balance key) fun difference => ?_
  split
  · exact h.lower _ _
  · split
    · exact h.lower _ _
    · exact h.pure _

theorem rebuild (h : t.SessionClosed P) (path : Path) (child : NodeRef) :
    P NodeRef (t.rebuild path child) := by
  induction path generalizing child with
  | nil => exact h.pure _
  | cons step path ih =>
      exact h.bind (h.setChild _ _ _) fun _ => h.bind (h.rebalance _) fun _ => ih _

theorem relink (h : t.SessionClosed P) (left right : RankKey) (path : Path)
    (place : List RankKey × RankKey) : P (Path × NodeRef) (t.relink left right path place) := by
  obtain ⟨passed, next⟩ := place
  cases passed with
  | nil =>
      exact h.bind (h.setChild _ _ _) fun _ => h.bind (h.rebalance _) fun _ => h.pure _
  | cons k passed =>
      exact h.bind (h.fetch next) fun _ => h.bind (h.setChild _ _ _) fun _ =>
        h.bind (h.setChild _ _ _) fun _ => h.pure _

end SessionClosed

/-- A property of actions holds of the elementary ones and of sequences, and also of failing as an
endless loop does. -/
structure DescentClosed (t : Tree) (P : (α : Type) → SessionM α → Prop) : Prop extends
    t.SessionClosed P where
  /-- It holds of giving up a loop. -/
  endless : ∀ {α : Type}, P α (throw t.endless)

namespace DescentClosed

variable {t : Tree} {P : (α : Type) → SessionM α → Prop}

theorem descend (h : t.DescentClosed P) (key : RankKey) (fuel : Nat) (ref : NodeRef)
    (path : Path) : P (Path × Option Node) (t.descend key fuel ref path) := by
  induction fuel generalizing ref path with
  | zero =>
      cases ref with
      | none => exact h.pure _
      | some here => exact h.endless
  | succ fuel ih =>
      cases ref with
      | none => exact h.pure _
      | some here =>
          refine h.bind (h.fetch here) fun node => ?_
          split
          · exact h.pure _
          · exact ih _ _
          · exact ih _ _

theorem leftmost (h : t.DescentClosed P) (fuel : Nat) (here : RankKey) (passed : List RankKey) :
    P (List RankKey × RankKey) (t.leftmost fuel here passed) := by
  induction fuel generalizing here passed with
  | zero => exact h.endless
  | succ fuel ih =>
      refine h.bind (h.fetch here) fun node => ?_
      split
      · exact ih _ _
      · exact h.pure _

theorem splice (h : t.DescentClosed P) (target : Node) (path : Path) :
    P (Path × NodeRef) (t.splice target path) := by
  cases hl : target.left with
  | none =>
      rw [Tree.splice, hl]
      cases target.right <;> exact h.pure _
  | some left =>
      cases hr : target.right with
      | none =>
          rw [Tree.splice, hl, hr]
          exact h.pure _
      | some right =>
          rw [splice_eq t hl hr]
          exact h.bind (h.leftmost _ _ _) fun place => h.relink _ _ _ place

theorem inserting (h : t.DescentClosed P) (key : RankKey) (payload : String) (root : NodeRef) :
    P (Option NodeRef) (t.inserting key payload root) := by
  refine h.bind (h.descend key t.reach root []) fun place => ?_
  split
  · exact h.pure _
  · exact h.bind (h.store _ _) fun _ => h.map (h.rebuild _ _) some

theorem deleting (h : t.DescentClosed P) (key : RankKey) (root : NodeRef) :
    P (Option NodeRef) (t.deleting key root) := by
  refine h.bind (h.descend key t.reach root []) fun place => ?_
  split
  · exact h.pure _
  · exact h.bind (h.splice _ _) fun _ => h.bind (h.discard _) fun _ => h.map (h.rebuild _ _) some

end DescentClosed

/-! ## Writing back -/

/-- A property of operations holds of the puts of a tree, and of two operations in sequence if it
holds of both. -/
structure WriteClosed (t : Tree) (P : (α : Type) → Access α → Prop) : Prop where
  /-- It holds of an answer, -/
  pure : ∀ {α : Type} (a : α), P α (pure a)
  /-- of two operations in sequence, -/
  bind : ∀ {α β : Type} {access : Access α} {f : α → Access β},
    P α access → (∀ a, P β (f a)) → P β (access >>= f)
  /-- of writing the record of a node, -/
  putNode : ∀ key value, P Unit (Access.put (t.name.nodeKey key) value)
  /-- and of writing the pointer to the root. -/
  putRoot : ∀ value, P Unit (Access.put t.name.rootKey value)

namespace WriteClosed

variable {t : Tree} {P : (α : Type) → Access α → Prop}

theorem writeNodes (h : t.WriteClosed P) (nodes : Std.TreeMap RankKey Node)
    (keys : List RankKey) : P Unit (t.writeNodes nodes keys) := by
  induction keys with
  | nil => exact h.pure _
  | cons key keys ih =>
      rw [Tree.writeNodes]
      cases nodes[key]? with
      | none => exact ih
      | some node => exact h.bind (h.putNode key _) fun _ => ih

theorem writeTombstones (h : t.WriteClosed P) (keys : List RankKey) :
    P Unit (t.writeTombstones keys) := by
  induction keys with
  | nil => exact h.pure _
  | cons key keys ih => exact h.bind (h.putNode key _) fun _ => ih

theorem flush (h : t.WriteClosed P) (s : Session) (oldRoot newRoot : NodeRef) :
    P Unit (t.flush s oldRoot newRoot) := by
  have htombs : P Unit (if t.tombstones then t.writeTombstones s.removed else Pure.pure ()) := by
    split
    · exact h.writeTombstones _
    · exact h.pure _
  refine h.bind (h.writeNodes _ _) fun _ => ?_
  by_cases hroot : oldRoot ≠ newRoot
  · rw [if_pos hroot]
    exact h.bind (h.putRoot _) fun _ => htombs
  · rw [if_neg hroot]
    exact htombs

/-- A change has the property if its session and the read of the root have it. -/
theorem conclude (h : t.WriteClosed P) (hroot : P NodeRef t.root)
    {m : NodeRef → SessionM (Option NodeRef)} (hm : ∀ root, P _ ((m root).run {})) :
    P Bool (do
      let root ← t.root
      t.conclude root (← (m root).run {})) := by
  refine h.bind hroot fun root => h.bind (hm root) fun outcome => ?_
  obtain ⟨newRoot, s⟩ := outcome
  cases newRoot with
  | none => exact h.pure _
  | some newRoot => exact h.bind (h.flush s root newRoot) fun _ => h.pure _

end WriteClosed

/-! ## Walks -/

/-- A property of actions of a walk holds of the elementary ones, and of two in sequence if it
holds of both. -/
structure WalkClosed (t : Tree) (P : (α : Type) → WalkM α → Prop) : Prop where
  /-- It holds of an answer, -/
  pure : ∀ {α : Type} (a : α), P α (pure a)
  /-- of two actions in sequence, -/
  bind : ∀ {α β : Type} {m : WalkM α} {f : α → WalkM β},
    P α m → (∀ a, P β (f a)) → P β (m >>= f)
  /-- of looking at the walk, -/
  get : P Walk get
  /-- of changing it, -/
  set : ∀ w : Walk, P PUnit (set w)
  /-- also by what it is, -/
  modify : ∀ f : Walk → Walk, P Unit (modify f)
  /-- of reading the pointer to the root, -/
  root : P NodeRef (Walk.ask t.root)
  /-- of reading a node, -/
  load : ∀ key, P Node (Walk.ask (t.load key))
  /-- and of failing for the shape of the tree. -/
  fault : ∀ {α : Type} (fault : TreeFault), P α (throw (.integrity fault))

namespace WalkClosed

variable {t : Tree} {P : (α : Type) → WalkM α → Prop}

theorem start (h : t.WalkClosed P) : P Unit (Walk.start t) := by
  refine h.bind h.get fun w => ?_
  split
  · exact h.bind h.root fun root => h.modify _
  · exact h.pure _

theorem descend (h : t.WalkClosed P) (n : Nat) : P Unit (Walk.descend t n) := by
  induction n with
  | zero =>
      rw [Walk.descend]
      refine h.bind h.get fun w => ?_
      split
      · exact h.pure _
      · exact h.fault _
  | succ n ih =>
      rw [Walk.descend]
      refine h.bind h.get fun w => ?_
      split
      · exact h.pure _
      · exact h.bind (h.load _) fun node => h.bind (h.modify _) fun _ => ih

theorem pop (h : t.WalkClosed P) : P (Option Placement) Walk.pop := by
  refine h.bind h.get fun w => ?_
  split
  · exact h.pure _
  · exact h.bind (h.set _) fun _ => h.pure _

theorem next (h : t.WalkClosed P) : P (Option Placement) (Walk.next t) :=
  h.bind h.start fun _ => h.bind h.get fun _ => h.bind (h.descend _) fun _ => h.pop

theorem map (h : t.WalkClosed P) {α β : Type} {m : WalkM α} (hm : P α m) (g : α → β) :
    P β (g <$> m) := by
  rw [map_eq_pure_bind]
  exact h.bind hm fun a => h.pure _

theorem take (h : t.WalkClosed P) (n : Nat) : P (List Placement) (Walk.take t n) := by
  induction n with
  | zero => exact h.pure _
  | succ n ih =>
      refine h.bind h.next fun entry => ?_
      cases entry with
      | none => exact h.pure _
      | some entry => exact h.map ih _

theorem drain (h : t.WalkClosed P) (n : Nat) : P (List Placement) (Walk.drain t n) := by
  induction n with
  | zero => exact h.fault _
  | succ n ih =>
      refine h.bind h.next fun entry => ?_
      cases entry with
      | none => exact h.pure _
      | some entry => exact h.map ih _

end WalkClosed

end Tree

end Leaderboard
