import Leaderboard.Tree.Basic

/-!
# Walks

A walk visits the nodes of a tree in the order of their keys, upward or
downward.  It keeps the nodes above the current place on a stack and reads each
node once, when it first reaches it.  It may be stopped anywhere, and a walk that
met a failure stands where it stood before the read that failed.

A stack of `Walk.maxDepth` nodes is higher than any balanced tree that fits in a
key space of 64 bits, so a deeper one means that the pointers go in a circle.
-/

namespace Leaderboard

/-- The order of a walk. -/
inductive Order where
  /-- The smallest key first. -/
  | ascending
  /-- The largest key first. -/
  | descending
deriving DecidableEq, Repr

namespace Order

/-- The side that is visited before the node. -/
def before : Order → Side
  | ascending => .left
  | descending => .right

/-- The side that is visited after the node. -/
def after : Order → Side
  | ascending => .right
  | descending => .left

end Order

/-- What a node is known by outside: its key and its payload. -/
abbrev Placement := RankKey × String

/-- A walk through a tree. -/
structure Walk where
  /-- Its order. -/
  order : Order
  /-- The nodes whose turn is still to come, the next one first. -/
  stack : List (RankKey × Node) := []
  /-- The subtree that comes before the stack. -/
  cursor : NodeRef := none
  /-- Whether the pointer to the root was read. -/
  started : Bool := false
deriving DecidableEq, Repr

/-- An action of a walk, which keeps its place when it fails. -/
abbrev WalkM := ExceptT Failure (StateT Walk Dialogue)

namespace Walk

/-- The most nodes that may be on the stack. -/
def maxDepth : Nat := 128

/-- A dialogue with the store during a walk. -/
def ask {α : Type} (access : Access α) : WalkM α := ExceptT.mk (StateT.lift access.run)

theorem run_ask {α : Type} (access : Access α) (w : Walk) :
    (ask access).run.run w = access.run >>= fun a => pure (a, w) := rfl

/-- Reads the pointer to the root, unless that was done. -/
def start (t : Tree) : WalkM Unit := do
  if !(← get).started then
    let root ← ask t.root
    modify fun w => { w with cursor := root, started := true }

/-- Goes down to the first node of the subtree at the cursor, through at most `n`
nodes. -/
def descend (t : Tree) (n : Nat) : WalkM Unit := do
  match (← get).cursor with
  | none => pure ()
  | some key =>
      match n with
      | 0 => throw (.integrity (.tooDeep t.name.text maxDepth))
      | n + 1 =>
          let node ← ask (t.load key)
          modify fun w => { w with
            cursor := node.child w.order.before
            stack := (key, node) :: w.stack }
          descend t n

/-- Takes the next node off the stack. -/
def pop : WalkM (Option Placement) := do
  let w ← get
  match w.stack with
  | [] => pure none
  | (key, node) :: stack =>
      set { w with stack, cursor := node.child w.order.after }
      pure (some (key, node.payload))

/-- The next entry, or none at the end. -/
def next (t : Tree) : WalkM (Option Placement) := do
  start t
  descend t (maxDepth - (← get).stack.length)
  pop

/-- The next `n` entries, or fewer at the end. -/
def take (t : Tree) : Nat → WalkM (List Placement)
  | 0 => pure []
  | n + 1 => do
      match ← next t with
      | none => pure []
      | some entry => (entry :: ·) <$> take t n

/-- The entries up to the end, which has to come within `n` calls of `next`. -/
def drain (t : Tree) : Nat → WalkM (List Placement)
  | 0 => throw t.endless
  | n + 1 => do
      match ← next t with
      | none => pure []
      | some entry => (entry :: ·) <$> drain t n

/-- Makes a walk, from its start. -/
def along {α : Type} (order : Order) (action : WalkM α) : Access α :=
  ExceptT.mk (Prod.fst <$> action.run.run { order })

theorem run_along {α : Type} (order : Order) (action : WalkM α) :
    (along order action).run = action.run.run { order } >>= fun p => pure p.1 :=
  map_eq_pure_bind ..

end Walk

namespace Tree

variable (t : Tree)

/-- The `n` entries with the largest keys, the largest first. -/
def topEntries (n : Nat) : Access (List Placement) := Walk.along .descending (Walk.take t n)

/-- The `n` payloads with the largest keys, the largest first. -/
def top (n : Nat) : Access (List String) := do
  pure ((← t.topEntries n).map Prod.snd)

/-- All entries, the smallest key first. -/
def entries : Access (List Placement) := Walk.along .ascending (Walk.drain t t.reach)

end Tree

end Leaderboard
