import Leaderboard.Record.Address
import Leaderboard.Record.Node

/-!
# Records in words

A record is shown as its key, an arrow and its value.  `Record.pair` reads keys
and values as records of trees as far as it can, and shows the rest as escaped
bytes; `Escaped.pair` shows all of it so.
-/

namespace Leaderboard

/-- A key and a value with an arrow between; a value that is missing is `None`. -/
def Escaped.arrow (key : String) (value : Option String) : String :=
  key ++ " -> " ++ value.getD "None"

/-- A key and a value that may be missing, as escaped bytes. -/
def Escaped.pair (key : Bytes) (value : Option Bytes) : String :=
  arrow (bytes key) (value.map bytes)

namespace Record

/-- A store key in words. -/
def key (raw : Bytes) : String :=
  match Address.parse raw with
  | some (.root tree) => tree ++ ":root"
  | some (.node tree key) => tree ++ ":node(" ++ key.render ++ ")"
  | some (.entity tree name) => tree ++ ":entity(" ++ Quoted.text name ++ ")"
  | none => Escaped.bytes raw

/-- A stored rank key in words. -/
def rankKey (raw : Bytes) : String :=
  match RankKey.decode raw with
  | .ok key => key.render
  | .error _ => Escaped.bytes raw

/-- A node in words. -/
def node (n : Node) : String :=
  Quoted.text n.payload ++ " [" ++ RankKey.renderRef n.left ++ " " ++ RankKey.renderRef n.right
    ++ "] h=" ++ toString n.height.toNat

/-- A stored value in words; its key tells what kind of value it is. -/
def value (rawKey raw : Bytes) : String :=
  if raw.isEmpty then "tombstone"
  else
    match Address.parse rawKey with
    | some (.root _) | some (.entity ..) => rankKey raw
    | some (.node ..) =>
        match Node.decode raw with
        | .ok n => node n
        | .error _ => Escaped.bytes raw
    | none => Escaped.bytes raw

/-- A key and a value that may be missing, in words. -/
def pair (rawKey : Bytes) (raw : Option Bytes) : String :=
  Escaped.arrow (key rawKey) (raw.map (value rawKey))

end Record

end Leaderboard
