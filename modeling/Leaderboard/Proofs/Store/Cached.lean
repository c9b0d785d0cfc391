import Leaderboard.Proofs.Cache.Values
import Leaderboard.Proofs.Store.Contents
import Leaderboard.Store.Cached

/-!
# Stores behind a cache

The operations of a cached store are their steps in a row.  If the store behind
the cache never fails, and nothing else writes to it, then every value in the cache
is the one that this store has.  So a cached store is reliable again, and has the
contents of the store behind it.
-/

namespace Leaderboard

namespace CachedStore

variable {σ : Type}

/-! ## Operations in steps -/

theorem onInner_eq {α : Type} {x : StoreM σ α} {s : CachedStore σ} {inner : σ}
    {r : Except Failure α} (h : x s.inner = (r, inner)) : onInner x s = (r, { s with inner }) := by
  rw [onInner, h]

theorem exists_of_onInner {α : Type} {x : StoreM σ α} {s t : CachedStore σ}
    {r : Except Failure α} (h : onInner x s = (r, t)) :
    ∃ inner, x s.inner = (r, inner) ∧ t = { s with inner } := by
  obtain ⟨rfl, rfl⟩ := Prod.mk.inj h
  exact ⟨_, rfl, rfl⟩

/-- A lookup tells what the cache has, and changes no value. -/
theorem lookup_eq (s : CachedStore σ) (key : Bytes) :
    s.lookup key = (s.cache.value? key, { s with cache := (s.cache.get key).2 }) := by
  rw [lookup, ← s.cache.get_fst]

variable [ByteStore σ] {s t : CachedStore σ} {inner : σ} {key value : Bytes}
  {found : Option Bytes} {failure : Failure}

/-- A read is a lookup, and if this finds nothing, goes on behind the cache. -/
theorem getDuring_eq (between : StoreM (CachedStore σ) Unit) (s : CachedStore σ) (key : Bytes) :
    getDuring between key s =
      match (s.lookup key).1 with
      | some value => (.ok value, (s.lookup key).2)
      | none => (do
          let value ← onInner (ByteStore.get key)
          between
          modify fun t => t.fill (s.lookup key).2.generation key value
          pure value : StoreM (CachedStore σ) (Option Bytes)) (s.lookup key).2 := by
  have hget : (MonadState.get : StoreM (CachedStore σ) (CachedStore σ)) s = (.ok s, s) := rfl
  have hset : (set (s.lookup key).2 : StoreM (CachedStore σ) PUnit) s =
      (.ok (), (s.lookup key).2) := rfl
  rw [getDuring, StoreM.bind_of_ok hget]
  dsimp only
  rw [StoreM.bind_of_ok hset]
  cases (s.lookup key).1 <;> rfl

theorem get_of_hit (h : s.lookup key = (some found, t)) :
    ByteStore.get key s = (.ok found, t) := by
  show getDuring (pure ()) key s = _
  rw [getDuring_eq, h]

theorem get_of_miss (h : s.lookup key = (none, t))
    (hget : ByteStore.get key t.inner = (.ok found, inner)) :
    ByteStore.get key s = (.ok found, fill { t with inner } t.generation key found) := by
  show getDuring (pure ()) key s = _
  rw [getDuring_eq, h]
  exact StoreM.bind_of_ok (onInner_eq hget) _

theorem get_of_error (h : s.lookup key = (none, t))
    (hget : ByteStore.get key t.inner = (.error failure, inner)) :
    ByteStore.get key s = (.error failure, { t with inner }) := by
  show getDuring (pure ()) key s = _
  rw [getDuring_eq, h]
  exact StoreM.bind_of_error (onInner_eq hget) _

theorem put_of_ok (h : ByteStore.put key value s.inner = (.ok (), inner)) :
    ByteStore.put key value s = (.ok (), note { s with inner } key value) :=
  StoreM.bind_of_ok (onInner_eq h) _

theorem put_of_error (h : ByteStore.put key value s.inner = (.error failure, inner)) :
    ByteStore.put key value s = (.error failure, { s with inner }) :=
  StoreM.bind_of_error (onInner_eq h) _

end CachedStore

/-! ## Reliability -/

open ReliableStore (Sound contents)

/-- A cached store is as reliable as the store behind, as long as every value in the
cache is the one that this store has. -/
instance {σ : Type} [ByteStore σ] [ReliableStore σ] : ReliableStore (CachedStore σ) where
  Sound s := Sound s.inner ∧ s.cache.All fun key value => value = contents s.inner key
  contents s := contents s.inner
  get_eq := by
    intro s key h
    obtain ⟨hinner, hcache⟩ := h
    have hlookup := s.lookup_eq key
    cases hfound : s.cache.value? key with
    | some found =>
        rw [hfound] at hlookup
        have hread := CachedStore.get_of_hit hlookup
        rw [hcache hfound] at hread
        exact ⟨_, hread, ⟨hinner, hcache.get key⟩, rfl⟩
    | none =>
        rw [hfound] at hlookup
        obtain ⟨inner, hget, hinner', hcontents⟩ := ReliableStore.get_eq key hinner
        have hfill := CachedStore.get_of_miss hlookup hget
        rw [CachedStore.fill, if_pos rfl] at hfill
        refine ⟨_, hfill, ⟨hinner', ?_⟩, hcontents⟩
        show Cache.All _ fun key value => value = contents inner key
        rw [hcontents]
        exact (hcache.get key).insert rfl fun _ _ _ hk => hk
  put_eq := by
    intro s key value h
    obtain ⟨hinner, hcache⟩ := h
    obtain ⟨inner, hput, hinner', hcontents⟩ := ReliableStore.put_eq key value hinner
    refine ⟨_, CachedStore.put_of_ok hput, ⟨hinner', ?_⟩, hcontents⟩
    show Cache.All _ fun key value => value = contents inner key
    rw [hcontents]
    refine hcache.insert (Contents.put_self _ _ _).symm fun k v hne hk => ?_
    rw [Contents.put_of_ne _ _ hne]
    exact hk

theorem CachedStore.sound_ofCapacity {σ : Type} [ByteStore σ] [ReliableStore σ] {inner : σ}
    (h : Sound inner) (capacity : Nat) : Sound (ofCapacity inner capacity) :=
  ⟨h, Cache.all_ofCapacity _⟩

end Leaderboard
