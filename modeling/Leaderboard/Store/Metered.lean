import Leaderboard.Store.Basic

/-!
# Metered stores

A metered store stands in front of another and watches it.  It counts the reads,
keeps a journal of the puts that succeeded, and can be given a budget of reads
and a budget of puts.  An operation beyond its budget fails and does nothing.
-/

namespace Leaderboard

/-- A store whose operations are counted, recorded and rationed. -/
structure Metered (σ : Type) where
  /-- The store behind the meter. -/
  inner : σ
  /-- The number of reads, failed ones included. -/
  reads : Nat := 0
  /-- The puts that succeeded, newest first. -/
  journal : List (Bytes × Bytes) := []
  /-- The number of reads that will be let through; none for no bound. -/
  getBudget : Option Nat := none
  /-- The number of puts that will be let through; none for no bound. -/
  putBudget : Option Nat := none
deriving Repr

namespace Metered

variable {σ : Type} [ByteStore σ]

/-- The failure of an operation beyond its budget. -/
def outOfBudget : Failure := .store "out of budget"

/-- Reads through the meter. -/
def get (key : Bytes) : StoreM (Metered σ) (Option Bytes) := fun m =>
  let m := { m with reads := m.reads + 1 }
  if m.getBudget = some 0 then (.error outOfBudget, m)
  else
    let (reply, inner) := ByteStore.get key m.inner
    (reply, { m with inner, getBudget := m.getBudget.map (· - 1) })

/-- Puts through the meter. -/
def put (key value : Bytes) : StoreM (Metered σ) Unit := fun m =>
  if m.putBudget = some 0 then (.error outOfBudget, m)
  else
    let (reply, inner) := ByteStore.put key value m.inner
    let m := { m with inner, putBudget := m.putBudget.map (· - 1) }
    match reply with
    | .ok () => (.ok (), { m with journal := (key, value) :: m.journal })
    | .error failure => (.error failure, m)

/-- Syncs the store behind the meter. -/
def sync : StoreM (Metered σ) Unit := fun m =>
  let (reply, inner) := ByteStore.sync m.inner
  (reply, { m with inner })

instance : ByteStore (Metered σ) where
  get := get
  put := put
  sync := sync

/-- The same store with new budgets. -/
def ration (m : Metered σ) (gets puts : Option Nat) : Metered σ :=
  { m with getBudget := gets, putBudget := puts }

end Metered

end Leaderboard
