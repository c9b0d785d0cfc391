import Std.Data.TreeMap
import Leaderboard.Store.Basic

/-!
# Stores in memory

A memory store keeps its records in a map.  It never fails.
-/

namespace Leaderboard

/-- A store in memory. -/
structure MemoryStore where
  /-- The records, removed ones included. -/
  records : Std.TreeMap Bytes Bytes := ∅

namespace MemoryStore

instance : ByteStore MemoryStore where
  get key store := (.ok store.records[key]?, store)
  put key value store := (.ok (), { store with records := store.records.insert key value })

/-- The number of records, removed ones included. -/
def size (store : MemoryStore) : Nat := store.records.size

@[simp] theorem get_eq (store : MemoryStore) (key : Bytes) :
    ByteStore.get key store = (.ok store.records[key]?, store) := rfl

@[simp] theorem put_eq (store : MemoryStore) (key value : Bytes) :
    ByteStore.put key value store =
      (.ok (), { store with records := store.records.insert key value }) := rfl

end MemoryStore

end Leaderboard
