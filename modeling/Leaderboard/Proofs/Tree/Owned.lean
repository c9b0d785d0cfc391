import Leaderboard.Proofs.Record.Layout
import Leaderboard.Proofs.Store.Within
import Leaderboard.Proofs.Tree.Steady
import Leaderboard.Tree.Audit

/-!
# A tree keeps to its own records

Every operation of a tree reads and writes records of that tree only, whatever it
reads.  The records are reached through `Tree.root`, `Tree.load` and the puts of
`Tree.flush`, whose store keys begin with the name of the tree and a slash
(`TreeName.Owns`), and everything else is put together from these.
-/

namespace Leaderboard

open SessionM (within_pure within_throw within_get within_modify within_lift)

namespace Tree

variable (t : Tree)

/-! ## Reads -/

theorem within_decoded {P : Bytes → Prop} {α : Type} (key : Bytes)
    (decoded : Except FormatFault α) : (Tree.decoded key decoded).Within P := by
  cases decoded with
  | ok a => exact Access.within_pure a
  | error cause => exact Access.within_throw _

theorem within_root : t.root.Within t.name.Owns := by
  refine (Access.within_get t.name.owns_rootKey).bind fun value => ?_
  split
  · exact Access.within_pure _
  · exact Access.within_pure _
  · exact (within_decoded _ _).map some

theorem within_load (key : RankKey) : (t.load key).Within t.name.Owns := by
  refine (Access.within_get (t.name.owns_nodeKey key)).bind fun value => ?_
  split
  · exact Access.within_throw _
  · exact Access.within_throw _
  · exact within_decoded _ _

theorem within_gather (n : Nat) (pending : List RankKey) (nodes : Std.TreeMap RankKey Node) :
    (t.gather n pending nodes).Within t.name.Owns := by
  induction n generalizing pending nodes with
  | zero =>
      cases pending with
      | nil => exact Access.within_pure _
      | cons key pending => exact Access.within_throw _
  | succ n ih =>
      cases pending with
      | nil => exact Access.within_pure _
      | cons key pending =>
          rw [gather]
          split
          · exact (Access.within_throw _).bind fun _ => (t.within_load key).bind fun _ => ih _ _
          · exact (t.within_load key).bind fun _ => ih _ _

/-- An audit reads the records of its tree only. -/
theorem within_validate : t.validate.Within t.name.Owns := by
  refine t.within_root.bind fun root => (t.within_gather _ _ _).bind fun nodes => ?_
  split
  · exact Access.within_pure _
  · exact Access.within_throw _

/-! ## Walks -/

/-- Walks read the records of their tree only. -/
theorem walk_within : t.WalkClosed fun _ m => WalkM.Within t.name.Owns m where
  pure := WalkM.within_pure
  bind h hf := WalkM.Within.bind h hf
  get := WalkM.within_get
  set := WalkM.within_set
  modify := WalkM.within_modify
  root := WalkM.within_ask t.within_root
  load key := WalkM.within_ask (t.within_load key)
  fault _ := WalkM.within_throw _

theorem within_along {P : Bytes → Prop} {α : Type} {m : WalkM α} (h : WalkM.Within P m)
    (order : Order) : (Walk.along order m).Within P := by
  show Dialogue.Within P (Prod.fst <$> m.run.run { order })
  rw [map_eq_pure_bind]
  exact (h _).bind fun _ => trivial

/-- Reading the largest entries reads the records of the tree only. -/
theorem within_top (n : Nat) : (t.top n).Within t.name.Owns :=
  (within_along (t.walk_within.take n) .descending).bind fun _ => Access.within_pure _

/-! ## Changes -/

/-- An action of a session keeps to the records of the tree. -/
abbrev Owning {α : Type} (m : SessionM α) : Prop := SessionM.Within t.name.Owns m

theorem owning_fetch (key : RankKey) : t.Owning (t.fetch key) := by
  refine within_get.bind fun s => ?_
  split
  · exact within_pure _
  · exact (within_lift (t.within_load key)).bind fun node =>
      (within_modify _).bind fun _ => within_pure _

/-- Sessions read the records of their tree only. -/
theorem session_within : t.DescentClosed fun _ m => t.Owning m where
  pure := within_pure
  bind h hf := SessionM.Within.bind h hf
  fetch := t.owning_fetch
  store _ _ := within_modify _
  discard _ := within_modify _
  fault _ := within_throw _
  endless := within_throw _

/-- Flushes write the records of their tree only. -/
theorem write_within : t.WriteClosed fun _ access => access.Within t.name.Owns where
  pure := Access.within_pure
  bind h hf := Access.Within.bind h hf
  putNode key value := Access.within_put (t.name.owns_nodeKey key) value
  putRoot value := Access.within_put t.name.owns_rootKey value

/-- An insert reads and writes the records of its tree only. -/
theorem within_insert (key : RankKey) (payload : String) :
    (t.insert key payload).Within t.name.Owns := by
  rw [insert_eq]
  exact t.write_within.conclude t.within_root fun root =>
    t.session_within.inserting key payload root {}

/-- A delete reads and writes the records of its tree only. -/
theorem within_delete (key : RankKey) : (t.delete key).Within t.name.Owns := by
  rw [delete_eq]
  exact t.write_within.conclude t.within_root fun root =>
    t.session_within.deleting key root {}

end Tree

end Leaderboard
