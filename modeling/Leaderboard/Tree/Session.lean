import Std.Data.TreeMap
import Leaderboard.Tree.Basic

/-!
# Sessions

A change to a tree is made in a *session*: the nodes it touches are read into
memory, changed there, and written back at the end by `flush`.  A node is read
from the store once.

`flush` writes the changed nodes in the order of their keys, then the pointer to
the root if it changed, and last empties the records of the removed nodes if the
tree keeps tombstones.  It is the only part of a session that writes.
-/

namespace Leaderboard

/-- The nodes read and changed by one operation. -/
structure Session where
  /-- The nodes in memory. -/
  nodes : Std.TreeMap RankKey Node := ∅
  /-- The keys of the changed nodes, in increasing order. -/
  dirty : List RankKey := []
  /-- The keys of the removed nodes, in the order of their removal. -/
  removed : List RankKey := []

/-- A key put in its place in an increasing list. -/
def RankKey.insertInto (key : RankKey) : List RankKey → List RankKey
  | [] => [key]
  | k :: ks =>
      match compare key k with
      | .lt => key :: k :: ks
      | .eq => k :: ks
      | .gt => k :: key.insertInto ks

/-- An action in a session. -/
abbrev SessionM := StateT Session Access

namespace Tree

variable (t : Tree)

/-! ## Nodes in memory -/

/-- The node at a key, from memory or else from the store. -/
def fetch (key : RankKey) : SessionM Node := do
  match (← get).nodes[key]? with
  | some node => pure node
  | none =>
      let node ← t.load key
      modify fun s => { s with nodes := s.nodes.insert key node }
      pure node

/-- Changes the node at a key. -/
def store (key : RankKey) (node : Node) : SessionM Unit :=
  modify fun s => { s with nodes := s.nodes.insert key node, dirty := key.insertInto s.dirty }

/-- Takes the node at a key out of memory, to be removed from the store. -/
def discard (key : RankKey) : SessionM Unit :=
  modify fun s => {
    nodes := s.nodes.erase key
    dirty := s.dirty.filter (· ≠ key)
    removed := s.removed ++ [key] }

/-- Gives a node a child.  The node changes only if that is another child. -/
def setChild (parent : RankKey) (side : Side) (child : NodeRef) : SessionM Unit := do
  let node ← t.fetch parent
  if node.child side ≠ child then store parent (node.setChild side child)

/-! ## Heights -/

/-- The height of a subtree. -/
def height : NodeRef → SessionM UInt32
  | none => pure 0
  | some key => do pure (← t.fetch key).height

/-- The heights of the two subtrees of a node. -/
def childHeights (key : RankKey) : SessionM (UInt32 × UInt32) := do
  let node ← t.fetch key
  let left ← t.height node.left
  let right ← t.height node.right
  pure (left, right)

/-- How much higher the left subtree of a node is than the right one. -/
def balance (key : RankKey) : SessionM Int := do
  let (left, right) ← t.childHeights key
  pure ((left.toNat : Int) - (right.toNat : Int))

/-- Makes a node store its height. -/
def updateHeight (key : RankKey) : SessionM Unit := do
  let (left, right) ← t.childHeights key
  let height := 1 + max left right
  let node ← t.fetch key
  if node.height ≠ height then store key { node with height }

/-! ## Rotations -/

/-- The child of a node that has one there. -/
def childOrFault (key : RankKey) (side : Side) (fault : TreeFault) : SessionM RankKey := do
  match (← t.fetch key).child side with
  | some child => pure child
  | none => throw (.integrity fault)

/-- Puts the left child of a node above it.  Gives the new root of the subtree. -/
def rotateRight (key : RankKey) : SessionM RankKey := do
  let pivot ← t.childOrFault key .left (.rightRotation key)
  let inner := (← t.fetch pivot).right
  t.setChild key .left inner
  t.setChild pivot .right (some key)
  t.updateHeight key
  t.updateHeight pivot
  pure pivot

/-- Puts the right child of a node above it.  Gives the new root of the subtree. -/
def rotateLeft (key : RankKey) : SessionM RankKey := do
  let pivot ← t.childOrFault key .right (.leftRotation key)
  let inner := (← t.fetch pivot).left
  t.setChild key .right inner
  t.setChild pivot .left (some key)
  t.updateHeight key
  t.updateHeight pivot
  pure pivot

/-- Balances a node whose subtrees are balanced.  Gives the new root of the
subtree. -/
def rebalance (key : RankKey) : SessionM RankKey := do
  t.updateHeight key
  let difference ← t.balance key
  if difference > 1 then
    let left ← t.childOrFault key .left (.leftHeavy key)
    if (← t.balance left) < 0 then
      t.setChild key .left (some (← t.rotateLeft left))
    t.rotateRight key
  else if difference < -1 then
    let right ← t.childOrFault key .right (.rightHeavy key)
    if (← t.balance right) > 0 then
      t.setChild key .right (some (← t.rotateRight right))
    t.rotateLeft key
  else pure key

/-! ## The way back up -/

/-- A way down the tree: the nodes passed and the side taken at each, the last
one first. -/
abbrev Path := List (RankKey × Side)

/-- Hangs a subtree under the last node of a way down, and balances the nodes of
the way upward.  Gives the new root of the tree. -/
def rebuild : Path → NodeRef → SessionM NodeRef
  | [], child => pure child
  | (parent, side) :: path, child => do
      t.setChild parent side child
      let top ← t.rebalance parent
      rebuild path (some top)

/-! ## Writing back -/

/-- Writes the changed nodes. -/
def writeNodes (nodes : Std.TreeMap RankKey Node) : List RankKey → Access Unit
  | [] => pure ()
  | key :: keys => do
      match nodes[key]? with
      | some node => Access.put (t.name.nodeKey key) node.encode
      | none => pure ()
      writeNodes nodes keys

/-- Writes the pointer to the root. -/
def writeRoot (root : NodeRef) : Access Unit :=
  Access.put t.name.rootKey ((root.map RankKey.encode).getD [])

/-- Empties the records of removed nodes. -/
def writeTombstones : List RankKey → Access Unit
  | [] => pure ()
  | key :: keys => do
      Access.put (t.name.nodeKey key) []
      writeTombstones keys

/-- Writes a session back. -/
def flush (s : Session) (oldRoot newRoot : NodeRef) : Access Unit := do
  t.writeNodes s.nodes s.dirty
  if oldRoot ≠ newRoot then t.writeRoot newRoot
  if t.tombstones then t.writeTombstones s.removed

end Tree

end Leaderboard
