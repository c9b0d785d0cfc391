import Std.Data.TreeMap
import Leaderboard.Tree.Basic

/-!
# Audits

An audit reads a whole tree and checks that it is what a tree should be: no node
is reached by two pointers, every key lies strictly between those of the
ancestors it branched off from, the heights of two siblings differ by at most
one, and every node stores its height.

The nodes are read first, right subtrees before left ones, and checked after,
left subtrees before right ones and both before the node.  A node is read only
once, so no more are read than there are rank keys, whatever the pointers are.
-/

namespace Leaderboard

/-- The size of a tree that passed an audit. -/
structure TreeStats where
  /-- The number of its nodes. -/
  nodes : Nat
  /-- Its height. -/
  height : Nat
deriving DecidableEq, Repr

namespace Tree

variable (t : Tree)

/-- Reads the nodes that some pointers lead to, at most `n` of them. -/
def gather : Nat → List RankKey → Std.TreeMap RankKey Node →
    Access (Std.TreeMap RankKey Node)
  | _, [], nodes => pure nodes
  | 0, _ :: _, _ => throw t.endless
  | n + 1, key :: pending, nodes => do
      if nodes.contains key then throw (.integrity (.sharedNode key))
      let node ← t.load key
      gather n (node.right.toList ++ node.left.toList ++ pending) (nodes.insert key node)

/-- Whether a key lies strictly between two bounds, where there are any. -/
def Between (lower upper : NodeRef) (key : RankKey) : Prop :=
  (∀ l ∈ lower, l < key) ∧ (∀ u ∈ upper, key < u)

instance (lower upper : NodeRef) (key : RankKey) : Decidable (Between lower upper key) :=
  inferInstanceAs (Decidable (_ ∧ _))

/-- Checks a subtree no higher than `n`, whose keys have to lie between two bounds.
Gives its height. -/
def check (nodes : Std.TreeMap RankKey Node) : Nat → NodeRef → NodeRef → NodeRef →
    Except Failure Nat
  | _, none, _, _ => .ok 0
  | 0, some _, _, _ => .error t.endless
  | n + 1, some key, lower, upper =>
      match nodes[key]? with
      | none => .error (.integrity (.notLoaded t.name.text key))
      | some node =>
          if ¬ Between lower upper key then .error (.integrity (.outOfOrder t.name.text key))
          else do
            let left ← check nodes n node.left lower (some key)
            let right ← check nodes n node.right (some key) upper
            let height := 1 + max left right
            if left > right + 1 ∨ right > left + 1 then
              .error (.integrity (.unbalanced t.name.text key left right))
            else if node.height.toNat ≠ height then
              .error (.integrity (.wrongHeight t.name.text key node.height.toNat height))
            else .ok height

/-- Audits the tree. -/
def validate : Access TreeStats := do
  let root ← t.root
  let nodes ← t.gather (RankKey.total + 1) root.toList ∅
  match t.check nodes nodes.size root none none with
  | .ok height => pure { nodes := nodes.size, height }
  | .error failure => throw failure

end Tree

end Leaderboard
