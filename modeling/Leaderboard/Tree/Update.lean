import Leaderboard.Tree.Session

/-!
# Inserting and deleting

Both operations go down from the root to the place of the key, change the tree
there, and balance the nodes on the way back up.  An insert of a key that is
there and a delete of one that is not change nothing and write nothing.

A node's address is its key, so a node with two children cannot be replaced by
copying the next one into it.  Instead the next node is taken out of its place
and gets the removed node's children and parent.
-/

namespace Leaderboard

namespace Tree

variable (t : Tree)

/-- Goes down toward a key from a node, following at most `n` pointers.  Gives
the way down, and the node at the key if there is one. -/
def descend (key : RankKey) : Nat → NodeRef → Path → SessionM (Path × Option Node)
  | _, none, path => pure (path, none)
  | 0, some _, _ => throw t.endless
  | n + 1, some here, path => do
      let node ← t.fetch here
      match compare key here with
      | .eq => pure (path, some node)
      | .lt => descend key n node.left ((here, .left) :: path)
      | .gt => descend key n node.right ((here, .right) :: path)

/-- Goes down to the left from a node, following at most `n` pointers.  Gives the
nodes passed, the last one first, and the node where it ends. -/
def leftmost : Nat → RankKey → List RankKey → SessionM (List RankKey × RankKey)
  | 0, _, _ => throw t.endless
  | n + 1, here, passed => do
      match (← t.fetch here).left with
      | some next => leftmost n next (here :: passed)
      | none => pure (passed, here)

/-- Inserts a payload at a key.  Tells whether the key was free. -/
def insert (key : RankKey) (payload : String) : Access Bool := do
  let root ← t.root
  let action : SessionM (Option NodeRef) := do
    match ← t.descend key t.reach root [] with
    | (_, some _) => pure none
    | (path, none) =>
        store key (Node.leaf payload)
        some <$> t.rebuild path (some key)
  match ← action.run {} with
  | (none, _) => pure false
  | (some newRoot, session) =>
      t.flush session root newRoot
      pure true

/-- Takes the children of a removed node together.  Gives the way down to the
place from which the tree is to be balanced, and the subtree that goes there. -/
def splice (target : Node) (path : Path) : SessionM (Path × NodeRef) := do
  match target.left, target.right with
  | none, none => pure (path, none)
  | some only, none | none, some only => pure (path, some only)
  | some left, some right =>
      match ← t.leftmost t.reach right [] with
      | ([], next) =>
          t.setChild next .left (some left)
          pure (path, some (← t.rebalance next))
      | (passed, next) =>
          let orphan := (← t.fetch next).right
          t.setChild next .left (some left)
          t.setChild next .right (some right)
          pure (passed.map (·, Side.left) ++ (next, .right) :: path, orphan)

/-- Deletes the node at a key.  Tells whether there was one. -/
def delete (key : RankKey) : Access Bool := do
  let root ← t.root
  let action : SessionM (Option NodeRef) := do
    match ← t.descend key t.reach root [] with
    | (_, none) => pure none
    | (path, some target) =>
        let (path, replacement) ← t.splice target path
        discard key
        some <$> t.rebuild path replacement
  match ← action.run {} with
  | (none, _) => pure false
  | (some newRoot, session) =>
      t.flush session root newRoot
      pure true

end Tree

end Leaderboard
