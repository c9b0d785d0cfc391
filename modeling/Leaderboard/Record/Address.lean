import Leaderboard.Failure

/-!
# Record addresses

The trees of a store share it by name.  A tree of name `t` keeps three kinds of
records:

* `t/root`, the pointer to its root;
* `t/n/` and a rank key, a node;
* `t/e/` and the name of an entity, the rank key the entity has now.

`Address` is such a record, `Address.encode` its store key and `Address.parse`
reads a store key.  A tree's name is not empty and holds no slash, so the first
slash of a store key ends the name.  `Address.parse` does not check that the
name before it is not empty.
-/

namespace Leaderboard

/-! ## Names of trees -/

/-- The name of a tree. -/
structure TreeName where
  /-- The name. -/
  text : String
  /-- It is not empty. -/
  nonempty : text.toList ≠ []
  /-- It holds no slash. -/
  noSlash : '/' ∉ text.toList
deriving DecidableEq

/-- The tree name a text is, if it may be one. -/
def TreeName.ofString (s : String) : Except Failure TreeName :=
  if h : s.toList ≠ [] ∧ '/' ∉ s.toList then .ok ⟨s, h.1, h.2⟩ else .error (.invalidTreeName s)

/-! ## Addresses -/

/-- A record of a tree. -/
inductive Address where
  /-- The pointer to the root. -/
  | root (tree : String)
  /-- A node. -/
  | node (tree : String) (key : RankKey)
  /-- The rank key of an entity. -/
  | entity (tree name : String)
deriving DecidableEq, Repr

namespace Address

/-- The byte that ends the name of a tree. -/
def slash : UInt8 := 0x2f

/-- What follows the name for the pointer to the root. -/
def rootMark : Bytes := [0x72, 0x6f, 0x6f, 0x74]

/-- What follows the name for a node. -/
def nodeMark : Bytes := [0x6e, 0x2f]

/-- What follows the name for an entity. -/
def entityMark : Bytes := [0x65, 0x2f]

/-- The store key of a record. -/
def encode : Address → Bytes
  | root tree => Bytes.ofString tree ++ slash :: rootMark
  | node tree key => Bytes.ofString tree ++ slash :: (nodeMark ++ key.encode)
  | entity tree name => Bytes.ofString tree ++ slash :: (entityMark ++ Bytes.ofString name)

/-- What is left of a byte string after a mark it begins with. -/
def after? : Bytes → Bytes → Option Bytes
  | [], bs => some bs
  | _ :: _, [] => none
  | m :: ms, b :: bs => if m = b then after? ms bs else none

/-- The record that the bytes after a tree's name and slash address. -/
def parseTail (tree : String) (tail : Bytes) : Option Address :=
  if tail = rootMark then some (root tree)
  else
    match after? nodeMark tail with
    | some bytes => (RankKey.decode bytes).toOption.map (node tree)
    | none =>
        match after? entityMark tail with
        | some bytes => (Bytes.toString? bytes).map (entity tree)
        | none => none

/-- The record that a store key addresses; none if it is no record of a tree. -/
def parse (key : Bytes) : Option Address :=
  match key.span (· ≠ slash) with
  | (_, []) => none
  | (name, _ :: tail) => (Bytes.toString? name).bind fun tree => parseTail tree tail

end Address

namespace TreeName

/-- The store key of the pointer to the root. -/
def rootKey (t : TreeName) : Bytes := (Address.root t.text).encode

/-- The store key of a node. -/
def nodeKey (t : TreeName) (key : RankKey) : Bytes := (Address.node t.text key).encode

/-- The store key of an entity's rank key. -/
def entityKey (t : TreeName) (name : String) : Bytes := (Address.entity t.text name).encode

end TreeName

example : Address.parse [0x74, 0x2f, 0x72, 0x6f, 0x6f, 0x74] = some (.root "t") := by
  decide +kernel
example : Address.parse [0x74, 0x2f, 0x65, 0x2f] = some (.entity "t" "") := by decide +kernel
example : Address.parse [0x74] = none := by decide +kernel

end Leaderboard
