import Leaderboard.Proofs.Store.Recording
import Leaderboard.Ranking

/-!
# Rankings behind a cache

A ranking does not notice the cache in front of its store.  Over any run of
operations it is replied the same as without one, failures included, and the store
behind the cache is given the same puts in the same order
(`Ranking.cached_serves_alike`).  The size of the cache does not matter, and neither
do the names of the trees, which need not be valid, nor what the store holds at
first, which need not be trees.
-/

namespace Leaderboard

open ReliableStore (Sound contents)
open RecordingStore (journal)

namespace Ranking

/-- An operation of a ranking. -/
inductive Operation where
  /-- The entity has a new count, and had an old one. -/
  | update (tree entity : String) (newCount : Int64) (oldCount : Option Int64)
      (tieBreaker : UInt64) (remove : Bool)
  /-- The entity has a new count. -/
  | reindex (tree entity : String) (newCount : Int64) (tieBreaker : UInt64)
  /-- The entity is removed. -/
  | unindex (tree entity : String)
  /-- The entities that rank highest. -/
  | top (tree : String) (n : Nat)
  /-- The rank key recorded for an entity. -/
  | currentRank (tree entity : String)
  /-- The audit of a tree. -/
  | validate (tree : String)
deriving DecidableEq, Repr

/-- What an operation gives. -/
inductive Outcome where
  /-- What became of an entity's place. -/
  | moved (transition : Transition)
  /-- Entities, the highest first. -/
  | listed (entities : List String)
  /-- A rank key, if there is one. -/
  | ranked (key : NodeRef)
  /-- What an audit found. -/
  | audited (stats : TreeStats)
deriving DecidableEq, Repr

/-- Serves an operation. -/
def serve (r : Ranking) : Operation → Access Outcome
  | .update tree entity newCount oldCount tieBreaker remove =>
      .moved <$> r.update tree entity newCount oldCount tieBreaker remove
  | .reindex tree entity newCount tieBreaker =>
      .moved <$> r.reindex tree entity newCount tieBreaker
  | .unindex tree entity => .moved <$> r.unindex tree entity
  | .top tree n => .listed <$> r.top tree n
  | .currentRank tree entity => .ranked <$> r.currentRank tree entity
  | .validate tree => .audited <$> r.validate tree

/-- The replies of a store to a run of operations, and the store after it. -/
def serveEach {σ : Type} [ByteStore σ] (r : Ranking) (operations : List Operation) (store : σ) :
    List (Except Failure Outcome) × σ :=
  Access.onEach (operations.map r.serve) store

/-- With a cache and without one, a ranking over a store that never fails is replied
the same to every run of operations, and the store is given the same puts. -/
theorem cached_serves_alike {σ : Type} [ByteStore σ] [ReliableStore σ] (r : Ranking)
    {store : Metered σ} (hstore : Sound store) (operations : List Operation) :
    (r.serveEach operations (r.cached store)).1 = (r.serveEach operations store).1 ∧
      (r.serveEach operations (r.cached store)).2.inner.journal =
        (r.serveEach operations store).2.journal ∧
      contents (r.serveEach operations (r.cached store)).2.inner =
        contents (r.serveEach operations store).2 := by
  have hcached : Sound (r.cached store) := CachedStore.sound_ofCapacity hstore _
  have hsame : contents (r.cached store) = contents store := rfl
  have hempty : journal (r.cached store) = journal store := rfl
  obtain ⟨plain, hplain, hcontents, hjournal⟩ :=
    Access.onEach_eq_eval (operations.map r.serve) hstore
  obtain ⟨behind, hbehind, hcontents', hjournal'⟩ :=
    Access.onEach_eq_eval (operations.map r.serve) hcached
  rw [hsame] at hbehind hcontents' hjournal'
  rw [hempty] at hjournal'
  simp only [serveEach, hplain, hbehind, true_and]
  exact ⟨hjournal'.trans hjournal.symm, hcontents'.trans hcontents.symm⟩

/-- A cache of one record, which every insertion evicts from. -/
theorem cached_serves_alike_memory :
    let r : Ranking := { settings := { cacheCapacity := 0 } }
    let store : Metered MemoryStore := { inner := {} }
    let operations : List Operation :=
      [.reindex "t" "a" 2 7, .reindex "t" "b" 3 8, .update "t" "c" 2 none 7 false, .unindex "t" "a",
        .top "t" 5, .currentRank "t" "b", .validate "t", .top "no/tree" 5]
    (r.serveEach operations (r.cached store)).1 = (r.serveEach operations store).1 ∧
      (r.serveEach operations (r.cached store)).2.inner.journal =
        (r.serveEach operations store).2.journal := by
  intro r store operations
  have hstore : Sound store := ⟨trivial, rfl, rfl⟩
  obtain ⟨hreplies, hjournal, -⟩ := r.cached_serves_alike hstore operations
  exact ⟨hreplies, hjournal⟩

end Ranking

end Leaderboard
