import Leaderboard.Failure

/-!
# Byte stores

A byte store keeps a value for each of some keys.  It reads and writes one
record at a time, and keeps no order, no deletions and no transactions.  A store
may fail at any operation, and what it is after the failure is up to the store,
so every operation is a `StoreM` action, whose state survives the failure.

An empty value is how the records of a tree spell "removed".
-/

namespace Leaderboard

/-- An action on a store, which keeps its effects when it fails. -/
abbrev StoreM (σ : Type) := ExceptT Failure (StateM σ)

namespace StoreM

variable {σ α β : Type} {s t : σ}

/-- An action that succeeds is gone on with. -/
theorem bind_of_ok {x : StoreM σ α} {a : α} (h : x s = (.ok a, t)) (k : α → StoreM σ β) :
    (x >>= k) s = k a t := by
  show ExceptT.bindCont k (x s).1 (x s).2 = _
  rw [h]
  rfl

/-- An action that fails is not gone on with. -/
theorem bind_of_error {x : StoreM σ α} {failure : Failure} (h : x s = (.error failure, t))
    (k : α → StoreM σ β) : (x >>= k) s = (.error failure, t) := by
  show ExceptT.bindCont k (x s).1 (x s).2 = _
  rw [h]
  rfl

end StoreM

/-- A store of byte strings. -/
class ByteStore (σ : Type) where
  /-- The value of a key, if it has one. -/
  get : Bytes → StoreM σ (Option Bytes)
  /-- Gives a key a value. -/
  put : Bytes → Bytes → StoreM σ Unit
  /-- Makes every completed put durable. -/
  sync : StoreM σ Unit := pure ()

end Leaderboard
