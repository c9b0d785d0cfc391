import Std.Data.TreeMap

/-!
# Caches with three queues

A cache keeps at most a fixed number of entries.  Which entry leaves when room is
needed is decided by three first-in-first-out queues (S3-FIFO).

* A new entry waits in the *small* queue, which is meant for a tenth of the
  capacity.  If it was read more than once when its turn comes, it moves to the
  main queue, and otherwise it is evicted.
* An entry of the *main* queue that was read since it was last looked at goes to
  the back of the queue with one read less, and otherwise it is evicted.
* The *ghost* queue remembers the keys lately evicted from the small queue.  A key
  that comes back while it is remembered enters the main queue.

Reads are counted up to three.  A ghost is tagged with a serial number, so that a
place in the ghost queue counts only while the key was not remembered again.

`Cache.insert` gives the evicted entries beside the new cache.
-/

namespace Leaderboard

/-- An entry of a cache. -/
structure Cache.Entry (ν : Type) where
  /-- The value. -/
  value : ν
  /-- The number of reads that still count. -/
  reads : Nat := 0
deriving DecidableEq, Repr

/-- A cache of bounded size. -/
structure Cache (κ ν : Type) [Ord κ] where
  /-- The number of entries it may hold. -/
  capacity : Nat
  /-- The keys on probation, oldest first. -/
  small : List κ := []
  /-- The keys that were read or remembered, next to be looked at first. -/
  main : List κ := []
  /-- The keys evicted from the small queue with their tags, oldest first. -/
  ghosts : List (κ × Nat) := []
  /-- The tag under which a key is remembered. -/
  tags : Std.TreeMap κ Nat := ∅
  /-- The tag given last. -/
  lastTag : Nat := 0
  /-- The entries. -/
  entries : Std.TreeMap κ (Cache.Entry ν) := ∅
  /-- The number of reads that found an entry. -/
  hits : Nat := 0
  /-- The number of reads that found none. -/
  misses : Nat := 0

namespace Cache

variable {κ ν : Type} [Ord κ]

/-- An empty cache.  It holds at least one entry, whatever is asked for. -/
def ofCapacity (capacity : Nat) : Cache κ ν := { capacity := max capacity 1 }

/-- The number of keys meant for the small queue. -/
def smallCapacity (c : Cache κ ν) : Nat := max (c.capacity / 10) 1

/-- The number of entries. -/
def size (c : Cache κ ν) : Nat := c.entries.size

/-- The most reads that are counted. -/
def maxReads : Nat := 3

/-! ## Reading -/

/-- The value of a key, and the cache after one more read. -/
def get (c : Cache κ ν) (key : κ) : Option ν × Cache κ ν :=
  match c.entries[key]? with
  | some e =>
      let e := { e with reads := min (e.reads + 1) maxReads }
      (some e.value, { c with entries := c.entries.insert key e, hits := c.hits + 1 })
  | none => (none, { c with misses := c.misses + 1 })

/-! ## Evicting -/

/-- Forgets the oldest ghosts beyond the capacity. -/
def forget (c : Cache κ ν) : Cache κ ν :=
  let excess := c.ghosts.length - c.capacity
  let expire (tags : Std.TreeMap κ Nat) (ghost : κ × Nat) : Std.TreeMap κ Nat :=
    if tags[ghost.1]? = some ghost.2 then tags.erase ghost.1 else tags
  { c with ghosts := c.ghosts.drop excess, tags := (c.ghosts.take excess).foldl expire c.tags }

/-- Remembers a key that was evicted from the small queue. -/
def remember (c : Cache κ ν) (key : κ) : Cache κ ν :=
  let tag := c.lastTag + 1
  forget { c with
    lastTag := tag
    tags := c.tags.insert key tag
    ghosts := c.ghosts ++ [(key, tag)] }

/-- Looks at keys of the small queue in order until one is evicted.  The keys read
more than once move to the main queue. -/
def scanSmall (c : Cache κ ν) : List κ → Option (κ × ν) × Cache κ ν
  | [] => (none, { c with small := [] })
  | key :: rest =>
      match c.entries[key]? with
      | none => scanSmall c rest
      | some e =>
          if e.reads > 1 then
            scanSmall { c with
              entries := c.entries.insert key { e with reads := 0 }
              main := c.main ++ [key] } rest
          else
            (some (key, e.value),
              remember { c with small := rest, entries := c.entries.erase key } key)

/-- The number of turns the keys of a queue can take before they are gone. -/
def turns (entries : Std.TreeMap κ (Entry ν)) : List κ → Nat
  | [] => 0
  | key :: rest => ((entries[key]?.map Entry.reads).getD 0) + 1 + turns entries rest

theorem turns_append (entries : Std.TreeMap κ (Entry ν)) (a b : List κ) :
    turns entries (a ++ b) = turns entries a + turns entries b := by
  induction a with
  | nil => simp [turns]
  | cons key rest ih =>
      simp only [List.cons_append, turns, ih]
      omega

variable [Std.TransOrd κ] [Std.LawfulEqOrd κ]

/-- Counting one read of a key down uses up a turn. -/
theorem turns_lt {entries : Std.TreeMap κ (Entry ν)} {key : κ} {e : Entry ν}
    (he : entries[key]? = some e) (hr : e.reads ≠ 0) (rest : List κ) :
    turns (entries.insert key { e with reads := e.reads - 1 }) (rest ++ [key]) <
      turns entries (key :: rest) := by
  have hle : turns (entries.insert key { e with reads := e.reads - 1 }) rest ≤
      turns entries rest := by
    induction rest with
    | nil => exact Nat.le_refl _
    | cons k rest ih =>
        simp only [turns]
        by_cases hk : key = k
        · subst hk
          simp only [Std.TreeMap.getElem?_insert_self, he, Option.map_some, Option.getD_some]
          omega
        · rw [Std.TreeMap.getElem?_insert]
          simp only [Std.LawfulEqOrd.compare_eq_iff_eq, hk, if_false]
          omega
  simp only [turns_append, turns, Std.TreeMap.getElem?_insert_self, he, Option.map_some,
    Option.getD_some]
  omega

/-- Looks at keys of the main queue in order until one is evicted.  A key that was
read goes to the back.  Gives the queue and the entries that are left. -/
def scanMain (entries : Std.TreeMap κ (Entry ν)) (queue : List κ) :
    Option (κ × ν) × List κ × Std.TreeMap κ (Entry ν) :=
  match queue with
  | [] => (none, [], entries)
  | key :: rest =>
      match he : entries[key]? with
      | none => scanMain entries rest
      | some e =>
          if hr : e.reads = 0 then (some (key, e.value), rest, entries.erase key)
          else
            have := turns_lt he hr rest
            scanMain (entries.insert key { e with reads := e.reads - 1 }) (rest ++ [key])
termination_by turns entries queue
decreasing_by
  · simp only [turns]
    omega
  · assumption

/-- Evicts from the small queue. -/
def evictSmall (c : Cache κ ν) : Option (κ × ν) × Cache κ ν := c.scanSmall c.small

/-- Evicts from the main queue. -/
def evictMain (c : Cache κ ν) : Option (κ × ν) × Cache κ ν :=
  let (evicted, main, entries) := scanMain c.entries c.main
  (evicted, { c with main, entries })

/-- Evicts from the small queue if it is full or there is no other. -/
def evict (c : Cache κ ν) : Option (κ × ν) × Cache κ ν :=
  if c.small.length ≥ c.smallCapacity ∨ c.main = [] then c.evictSmall else c.evictMain

/-! ## Inserting -/

/-- Evicts until there is room for one more entry, at most `n` times. -/
def makeRoom : Nat → Cache κ ν → List (κ × ν) × Cache κ ν
  | 0, c => ([], c)
  | n + 1, c =>
      if c.size < c.capacity then ([], c)
      else
        let (evicted, c) := c.evict
        let (more, c) := makeRoom n c
        (evicted.toList ++ more, c)

/-- The number of evictions after which both queues are empty: each takes a key off
the main queue, or moves it there from the small one. -/
def patience (c : Cache κ ν) : Nat := 2 * c.small.length + c.main.length

/-- Puts a new key into its queue. -/
def enqueue (c : Cache κ ν) (key : κ) : Cache κ ν :=
  if c.tags.contains key then { c with tags := c.tags.erase key, main := c.main ++ [key] }
  else { c with small := c.small ++ [key] }

/-- Gives a key a value.  A key that has an entry keeps its place and its reads.
The evicted entries come beside the new cache, first evicted first. -/
def insert (c : Cache κ ν) (key : κ) (value : ν) : List (κ × ν) × Cache κ ν :=
  match c.entries[key]? with
  | some e => ([], { c with entries := c.entries.insert key { e with value } })
  | none =>
      let (evicted, c) := makeRoom c.patience c
      let c := c.enqueue key
      (evicted, { c with entries := c.entries.insert key { value } })

end Cache

end Leaderboard
