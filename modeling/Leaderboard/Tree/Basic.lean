import Leaderboard.Record.Address
import Leaderboard.Record.Node
import Leaderboard.Store.Dialogue

/-!
# Trees in a store

A tree is a balanced search tree whose nodes are records of a store.  Child
pointers are rank keys, one record points to the root, and nothing is kept in
memory between operations.  So an operation is an `Access`: it reads the records
it needs, and writes the ones it changes.

The records may be anything.  A pointer to a record that is missing or empty is a
dangling reference, and a record that cannot be read is malformed.  Pointers may
even lead around in circles, so a loop that follows them gives up after
`Tree.reach` steps.  The default is more than any store can hold.
-/

namespace Leaderboard

/-- A tree of a store. -/
structure Tree where
  /-- Its name in the store. -/
  name : TreeName
  /-- Whether the record of a removed node is emptied. -/
  tombstones : Bool := true
  /-- The number of pointers a loop follows before it gives up. -/
  reach : Nat := UInt64.size

namespace Tree

/-- The failure of a loop that followed more pointers than the tree may have. -/
def endless (t : Tree) : Failure := .integrity (.endless t.name.text t.reach)

/-- Reads the content of a record, with a fault if that is malformed. -/
def decoded {α : Type} (key : Bytes) : Except FormatFault α → Access α
  | .ok a => pure a
  | .error cause => throw (.malformedRecord key (.undecodable cause))

/-- The pointer to the root. -/
def root (t : Tree) : Access NodeRef := do
  match ← Access.get t.name.rootKey with
  | none | some [] => pure none
  | some value => some <$> decoded t.name.rootKey (RankKey.decode value)

/-- Whether the tree has no nodes. -/
def isEmpty (t : Tree) : Access Bool := do
  pure (← t.root).isNone

/-- The node that a pointer leads to. -/
def load (t : Tree) (key : RankKey) : Access Node := do
  match ← Access.get (t.name.nodeKey key) with
  | none | some [] => throw (.danglingReference (t.name.nodeKey key))
  | some record => decoded (t.name.nodeKey key) (Node.decode record)

/-- Looks for a key from a node downward, following at most `n` pointers. -/
def searchFrom (t : Tree) (key : RankKey) : Nat → NodeRef → Access (Option String)
  | _, none => pure none
  | 0, some _ => throw t.endless
  | n + 1, some here => do
      let node ← t.load here
      match compare key here with
      | .eq => pure (some node.payload)
      | .lt => t.searchFrom key n node.left
      | .gt => t.searchFrom key n node.right

/-- The payload at a key, if the tree has a node there. -/
def search (t : Tree) (key : RankKey) : Access (Option String) := do
  t.searchFrom key t.reach (← t.root)

end Tree

end Leaderboard
