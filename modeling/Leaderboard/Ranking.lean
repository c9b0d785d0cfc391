import Leaderboard.Settings
import Leaderboard.Store.Cached
import Leaderboard.Tree.Audit
import Leaderboard.Tree.Update
import Leaderboard.Tree.Walk

/-!
# Rankings

A ranking keeps named trees of entities in step with counters that are kept
elsewhere.  When the count of an entity changes, its old rank key is deleted
from the tree and its new one is inserted.  Entities with a count that is not
positive are not listed.

`Ranking.update` is told the old count by its caller.  `Ranking.reindex` and
`Ranking.unindex` look it up instead: next to the tree they keep a record of the
rank key of every entity that they listed.
-/

namespace Leaderboard

/-- What an update did to an entity's place in a tree. -/
inductive Transition where
  /-- It was inserted and not there before. -/
  | indexed
  /-- It was deleted and inserted. -/
  | reindexed
  /-- It was deleted. -/
  | unindexed
  /-- Nothing was deleted or inserted. -/
  | unchanged
deriving DecidableEq, Repr

/-- The transition of an update that deleted and inserted, or not. -/
def Transition.of (deleted inserted : Bool) : Transition :=
  match deleted, inserted with
  | false, true => .indexed
  | true, true => .reindexed
  | true, false => .unindexed
  | false, false => .unchanged

/-- A ranking in some store. -/
structure Ranking where
  /-- Its settings. -/
  settings : IndexSettings := {}

namespace Ranking

/-- A store behind a cache of the size that the settings ask for. -/
def cached {σ : Type} (r : Ranking) (store : σ) : CachedStore σ :=
  .ofCapacity store r.settings.cacheCapacity.toNat

/-- The tree of a name. -/
def tree (r : Ranking) (name : String) : Except Failure Tree := do
  pure { name := ← TreeName.ofString name, tombstones := r.settings.tombstones }

/-- The rank key of an entity. -/
def rankKey (r : Ranking) (count : Int64) (tieBreaker : UInt64) : RankKey :=
  .make count tieBreaker r.settings.tieBreak

/-- An operation on the tree of a name. -/
def withTree {α : Type} (r : Ranking) (name : String) (operation : Tree → Access α) : Access α :=
  match r.tree name with
  | .ok t => operation t
  | .error failure => throw failure

/-! ## Updates with a known count -/

/-- Inserts an entity at a rank key that has to be free. -/
def insertNew (t : Tree) (key : RankKey) (entity : String) : Access Unit := do
  if !(← t.insert key entity) then throw (.occupied (t.name.nodeKey key))

/-- Moves an entity from the rank of its old count, if it has one, to the rank of
its new count.  It is not listed again if it is to be removed or if its new
count is not positive.  It need not have been listed before. -/
def update (r : Ranking) (tree entity : String) (newCount : Int64) (oldCount : Option Int64)
    (tieBreaker : UInt64) (remove : Bool) : Access Transition :=
  r.withTree tree fun t => do
    let deleted ←
      match oldCount with
      | some count => t.delete (r.rankKey count tieBreaker)
      | none => pure false
    let listed := !remove && decide (newCount > 0)
    if listed then insertNew t (r.rankKey newCount tieBreaker) entity
    pure (Transition.of deleted listed)

/-! ## Updates that look the old rank up -/

/-- The rank key recorded for an entity. -/
def recorded (t : Tree) (entity : String) : Access NodeRef := do
  match ← Access.get (t.name.entityKey entity) with
  | none | some [] => pure none
  | some value => some <$> Tree.decoded (t.name.entityKey entity) (RankKey.decode value)

/-- Deletes an entity from the tree at its recorded rank key, and empties the
record. -/
def forget (t : Tree) (entity : String) : NodeRef → Access Transition
  | none => pure .unchanged
  | some key => do
      let deleted ← t.delete key
      Access.put (t.name.entityKey entity) []
      pure (Transition.of deleted false)

/-- The rank key recorded for an entity. -/
def currentRank (r : Ranking) (tree entity : String) : Access NodeRef :=
  r.withTree tree fun t => recorded t entity

/-- Moves an entity from its recorded rank to the rank of its new count, and
records that. -/
def reindex (r : Ranking) (tree entity : String) (newCount : Int64) (tieBreaker : UInt64) :
    Access Transition :=
  r.withTree tree fun t => do
    let current ← recorded t entity
    if newCount ≤ 0 then forget t entity current
    else
      let key := r.rankKey newCount tieBreaker
      if current = some key then pure .unchanged
      else
        let deleted ←
          match current with
          | some old => t.delete old
          | none => pure false
        insertNew t key entity
        Access.put (t.name.entityKey entity) key.encode
        pure (Transition.of deleted true)

/-- Removes an entity from its recorded rank. -/
def unindex (r : Ranking) (tree entity : String) : Access Transition :=
  r.withTree tree fun t => do forget t entity (← recorded t entity)

/-! ## Reading -/

/-- The `n` entities that rank highest, the highest first. -/
def top (r : Ranking) (tree : String) (n : Nat) : Access (List String) :=
  r.withTree tree fun t => t.top n

/-- Audits the tree of a name. -/
def validate (r : Ranking) (tree : String) : Access TreeStats :=
  r.withTree tree fun t => t.validate

end Ranking

end Leaderboard
