import Leaderboard.Checksum
import Leaderboard.Rank

/-!
# Node records

A node of the tree holds its payload, pointers to its children and its height.
Its own rank key is where the record is stored and not part of it.

A record is the checksum of the body, eight bytes with the most significant
first, and then the body.  Reading checks the checksum before the body.
-/

namespace Leaderboard

/-- A side of a node. -/
inductive Side where
  /-- The side of the smaller keys. -/
  | left
  /-- The side of the larger keys. -/
  | right
deriving DecidableEq, Repr

/-- A node of the tree. -/
structure Node where
  /-- What is stored at the node. -/
  payload : String
  /-- The root of the subtree of the smaller keys. -/
  left : NodeRef := none
  /-- The root of the subtree of the larger keys. -/
  right : NodeRef := none
  /-- One more than the height of the higher subtree. -/
  height : UInt32 := 1
deriving DecidableEq, Repr

namespace Node

/-- A node without children. -/
def leaf (payload : String) : Node := { payload }

/-! ## Children -/

/-- The child on a side. -/
def child (n : Node) : Side → NodeRef
  | .left => n.left
  | .right => n.right

/-- The node with another child on a side. -/
def setChild (n : Node) (side : Side) (child : NodeRef) : Node :=
  match side with
  | .left => { n with left := child }
  | .right => { n with right := child }

@[simp] theorem child_setChild (n : Node) (s : Side) (c : NodeRef) :
    (n.setChild s c).child s = c := by
  cases s <;> rfl

/-- Giving a node the child it has changes nothing. -/
theorem setChild_child (n : Node) (s : Side) : n.setChild s (n.child s) = n := by
  cases s <;> rfl

/-! ## Records -/

/-- The fields of a node one after another. -/
def body : Codec Node :=
  (Codec.text.pair ((Codec.option RankKey.codec).pair
    ((Codec.option RankKey.codec).pair Codec.u32))).map
    (fun (payload, left, right, height) => { payload, left, right, height })
    (fun n => (n.payload, n.left, n.right, n.height))

/-- A body with its checksum in front. -/
def sealed (body : Bytes) : Bytes := Bytes.ofNatBE 8 (Checksum.of body).toNat ++ body

/-- The record of a node. -/
def encode (n : Node) : Bytes := sealed (body.encode n)

/-- The node of a record. -/
def decode (record : Bytes) : Except FormatFault Node :=
  match Bytes.split? 8 record with
  | none => .error .truncated
  | some (front, content) =>
      let stored := UInt64.ofNat (Bytes.toNatBE front)
      let computed := Checksum.of content
      if stored ≠ computed then .error (.checksum stored computed)
      else body.read content

example : (leaf "alice").encode =
    [0x88, 0xb4, 0x36, 0x4d, 0xcb, 0xd8, 0x02, 0xca, 5, 0, 0, 0, 0, 0, 0, 0,
      0x61, 0x6c, 0x69, 0x63, 0x65, 0, 0, 1, 0, 0, 0] := by decide +kernel

end Node

end Leaderboard
