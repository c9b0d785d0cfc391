import Leaderboard.Cache
import Leaderboard.Store.Basic

/-!
# Cached stores

A cached store puts a cache in front of another store.  A read that misses the
cache goes to the store and fills the cache with what it found, absence included.
A put goes to the store first and then to the cache.

A read takes three steps: it looks into the cache, it reads the store, and it
fills the cache.  A put may happen between the last two.  So every put starts a
new *generation*, and a read fills the cache only if the generation is the one
it started in.
-/

namespace Leaderboard

/-- A store behind a cache. -/
structure CachedStore (σ : Type) where
  /-- The store behind the cache. -/
  inner : σ
  /-- What is known of its records, absence included. -/
  cache : Cache Bytes (Option Bytes)
  /-- The number of puts so far. -/
  generation : Nat := 0

namespace CachedStore

variable {σ : Type} [ByteStore σ]

/-- A store behind an empty cache. -/
def ofCapacity (inner : σ) (capacity : Nat) : CachedStore σ :=
  { inner, cache := .ofCapacity capacity }

/-! ## The steps of an operation -/

/-- Looks a key up in the cache: the first step of a read. -/
def lookup (s : CachedStore σ) (key : Bytes) : Option (Option Bytes) × CachedStore σ :=
  let (found, cache) := s.cache.get key
  (found, { s with cache })

/-- Fills the cache, unless a put came in between: the last step of a read. -/
def fill (s : CachedStore σ) (generation : Nat) (key : Bytes) (value : Option Bytes) :
    CachedStore σ :=
  if s.generation = generation then { s with cache := (s.cache.insert key value).2 } else s

/-- Notes a put that the store has made: the last step of a put. -/
def note (s : CachedStore σ) (key value : Bytes) : CachedStore σ :=
  { s with cache := (s.cache.insert key (some value)).2, generation := s.generation + 1 }

/-- An operation of the store behind the cache. -/
def onInner {α : Type} (action : StoreM σ α) : StoreM (CachedStore σ) α := fun s =>
  let (reply, inner) := action s.inner
  (reply, { s with inner })

/-! ## Operations -/

/-- Gives a key a value. -/
def put (key value : Bytes) : StoreM (CachedStore σ) Unit := do
  onInner (ByteStore.put key value)
  modify fun s => s.note key value

/-- Reads a key.  If the store has to be asked, something else happens between its
answer and the last step, and a failure of that is a failure of the read. -/
def getDuring (between : StoreM (CachedStore σ) Unit) (key : Bytes) :
    StoreM (CachedStore σ) (Option Bytes) := do
  let (found, s) := (← MonadState.get).lookup key
  set s
  match found with
  | some value => pure value
  | none =>
      let value ← onInner (ByteStore.get key)
      between
      modify fun t => t.fill s.generation key value
      pure value

/-- Reads a key. -/
def get (key : Bytes) : StoreM (CachedStore σ) (Option Bytes) := getDuring (pure ()) key

instance : ByteStore (CachedStore σ) where
  get := get
  put := put
  sync := onInner ByteStore.sync

end CachedStore

end Leaderboard
