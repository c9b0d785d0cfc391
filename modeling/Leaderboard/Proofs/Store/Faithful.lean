import Leaderboard.Proofs.Store.Contents
import Leaderboard.Store.Metered

/-!
# Stores that may fail

A `FaithfulStore` may fail at any operation, and tells the truth all the same.  A
read that succeeds tells what the store holds.  A put that succeeds is held from then
on, and one that fails changes nothing of what is held.

Reliable stores are of this kind, and so are faithful stores behind a meter, whose
budgets make them fail.
-/

namespace Leaderboard

/-- A type of stores whose failures change nothing. -/
class FaithfulStore (σ : Type) [ByteStore σ] where
  /-- What holds of every store that can come about. -/
  Sound : σ → Prop
  /-- What a store holds. -/
  contents : σ → Contents
  /-- A read changes nothing, and if it succeeds it tells what the store holds. -/
  get_holds {s s' : σ} {r : Except Failure (Option Bytes)} {key : Bytes} (h : Sound s) :
    ByteStore.get key s = (r, s') →
      Sound s' ∧ contents s' = contents s ∧ ∀ value, r = .ok value → value = contents s key
  /-- A put that succeeds is the only change, and one that fails changes nothing. -/
  put_holds {s s' : σ} {r : Except Failure Unit} {key value : Bytes} (h : Sound s) :
    ByteStore.put key value s = (r, s') →
      Sound s' ∧ (r = .ok () → contents s' = (contents s).put key value) ∧
        ∀ failure, r = .error failure → contents s' = contents s

namespace FaithfulStore

/-- Stores that never fail are faithful. -/
@[reducible] def ofReliable (σ : Type) [ByteStore σ] [ReliableStore σ] : FaithfulStore σ where
  Sound := ReliableStore.Sound
  contents := ReliableStore.contents
  get_holds := by
    intro s s' r key h heq
    obtain ⟨t, hget, ht, hcontents⟩ := ReliableStore.get_eq key h
    rw [hget] at heq
    cases heq
    refine ⟨ht, hcontents, fun value hvalue => ?_⟩
    cases hvalue
    rfl
  put_holds := by
    intro s s' r key value h heq
    obtain ⟨t, hput, ht, hcontents⟩ := ReliableStore.put_eq key value h
    rw [hput] at heq
    cases heq
    exact ⟨ht, fun _ => hcontents, nofun⟩

instance : FaithfulStore MemoryStore := ofReliable MemoryStore

/-- Behind a meter a store is as faithful as before. -/
instance {σ : Type} [ByteStore σ] [FaithfulStore σ] : FaithfulStore (Metered σ) where
  Sound m := Sound m.inner
  contents m := contents m.inner
  get_holds := by
    intro m m' r key h heq
    change Metered.get key m = _ at heq
    rw [Metered.get] at heq
    split at heq
    · cases heq
      exact ⟨h, rfl, nofun⟩
    · cases hget : ByteStore.get key m.inner with
      | mk r inner =>
          simp only [hget] at heq
          cases heq
          exact get_holds h hget
  put_holds := by
    intro m m' r key value h heq
    change Metered.put key value m = _ at heq
    rw [Metered.put] at heq
    split at heq
    · cases heq
      exact ⟨h, nofun, fun _ _ => rfl⟩
    · cases hput : ByteStore.put key value m.inner with
      | mk r inner =>
          simp only [hput] at heq
          cases r with
          | ok a =>
              cases heq
              exact put_holds h hput
          | error failure =>
              cases heq
              exact put_holds h hput

end FaithfulStore

end Leaderboard
