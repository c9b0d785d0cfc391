import Leaderboard.Proofs.Store.Cached
import Leaderboard.Store.Metered

/-!
# Stores that record their puts

A `RecordingStore` is a reliable store with a journal of the puts that it was given,
in their order.  A metered store without budgets is one, in front of any reliable
store, and a cached store is one if the store behind its cache is.

What operations come to on a recording store, one after the other, is told by its
contents alone: the replies, and what is added to the journal
(`Access.onEach_eq_eval`).  So two recording stores with equal contents reply alike,
and their journals grow alike.
-/

namespace Leaderboard

open ReliableStore (Sound contents)

/-! ## Journals -/

/-- A type of reliable stores that keep a journal of their puts. -/
class RecordingStore (σ : Type) [ByteStore σ] extends ReliableStore σ where
  /-- The puts, newest first. -/
  journal : σ → List (Bytes × Bytes)
  /-- A read is not a put. -/
  get_journal {s s' : σ} {r : Except Failure (Option Bytes)} {key : Bytes} (h : Sound s) :
    ByteStore.get key s = (r, s') → journal s' = journal s
  /-- A put is entered with its key and its value. -/
  put_journal {s s' : σ} {r : Except Failure Unit} {key value : Bytes} (h : Sound s) :
    ByteStore.put key value s = (r, s') → journal s' = (key, value) :: journal s

open RecordingStore (journal)

namespace Metered

variable {σ : Type} [ByteStore σ]

/-- Operations are let through without bound. -/
structure Unbounded (m : Metered σ) : Prop where
  /-- Every read is let through. -/
  getBudget : m.getBudget = none
  /-- Every put is let through. -/
  putBudget : m.putBudget = none

theorem get_eq {m : Metered σ} {key : Bytes} {r : Except Failure (Option Bytes)} {inner : σ}
    (h : m.Unbounded) (hget : ByteStore.get key m.inner = (r, inner)) :
    ByteStore.get key m = (r, { m with inner, reads := m.reads + 1 }) := by
  have hbudget := h.getBudget
  show Metered.get key m = _
  simp only [Metered.get, hbudget, hget]
  rfl

theorem put_eq {m : Metered σ} {key value : Bytes} {inner : σ} (h : m.Unbounded)
    (hput : ByteStore.put key value m.inner = (.ok (), inner)) :
    ByteStore.put key value m =
      (.ok (), { m with inner, journal := (key, value) :: m.journal }) := by
  have hbudget := h.putBudget
  show Metered.put key value m = _
  simp only [Metered.put, hbudget, hput]
  rfl

instance [ReliableStore σ] : ReliableStore (Metered σ) where
  Sound m := Sound m.inner ∧ m.Unbounded
  contents m := contents m.inner
  get_eq key h := by
    obtain ⟨inner, hget, hinner, hcontents⟩ := ReliableStore.get_eq key h.1
    exact ⟨_, get_eq h.2 hget, ⟨hinner, h.2.getBudget, h.2.putBudget⟩, hcontents⟩
  put_eq key value h := by
    obtain ⟨inner, hput, hinner, hcontents⟩ := ReliableStore.put_eq key value h.1
    exact ⟨_, put_eq h.2 hput, ⟨hinner, h.2.getBudget, h.2.putBudget⟩, hcontents⟩

instance [ReliableStore σ] : RecordingStore (Metered σ) where
  journal m := m.journal
  get_journal := by
    intro m m' r key h heq
    obtain ⟨inner, hget, -, -⟩ := ReliableStore.get_eq key h.1
    rw [get_eq h.2 hget] at heq
    cases heq
    rfl
  put_journal := by
    intro m m' r key value h heq
    obtain ⟨inner, hput, -, -⟩ := ReliableStore.put_eq key value h.1
    rw [put_eq h.2 hput] at heq
    cases heq
    rfl

end Metered

/-- The puts of a cached store are those of the store behind its cache. -/
instance {σ : Type} [ByteStore σ] [RecordingStore σ] : RecordingStore (CachedStore σ) where
  journal s := journal s.inner
  get_journal := by
    intro s s' r key h heq
    have hlookup := s.lookup_eq key
    cases hfound : s.cache.value? key with
    | some found =>
        rw [hfound] at hlookup
        rw [CachedStore.get_of_hit hlookup] at heq
        cases heq
        rfl
    | none =>
        rw [hfound] at hlookup
        obtain ⟨inner, hget, -, -⟩ := ReliableStore.get_eq key h.1
        rw [CachedStore.get_of_miss hlookup hget, CachedStore.fill, if_pos rfl] at heq
        cases heq
        exact RecordingStore.get_journal h.1 hget
  put_journal := by
    intro s s' r key value h heq
    obtain ⟨inner, hput, -, -⟩ := ReliableStore.put_eq key value h.1
    rw [CachedStore.put_of_ok hput] at heq
    cases heq
    exact RecordingStore.put_journal h.1 hput

/-! ## Operations one after the other -/

variable {α σ : Type} [ByteStore σ]

/-- A dialogue enters its puts. -/
theorem Dialogue.run_journal [RecordingStore σ] (d : Dialogue α) {s : σ} (h : Sound s) :
    journal (d.run s).2 = (d.eval (contents s)).2.reverse ++ journal s := by
  induction d generalizing s with
  | answer a => rfl
  | get key next ih =>
      obtain ⟨s', hget, hs', hcontents⟩ := ReliableStore.get_eq key h
      have hrest := ih (.ok (contents s key)) hs'
      rw [hcontents, RecordingStore.get_journal h hget] at hrest
      rw [run_get, hget, eval]
      exact hrest
  | put key value next ih =>
      obtain ⟨s', hput, hs', hcontents⟩ := ReliableStore.put_eq key value h
      have hrest := ih (.ok ()) hs'
      rw [hcontents, RecordingStore.put_journal h hput] at hrest
      rw [run_put, hput, eval, List.reverse_cons, List.append_assoc]
      exact hrest

namespace Access

/-- The replies of a store to operations, one after the other, and the store after
them. -/
def onEach : List (Access α) → σ → List (Except Failure α) × σ
  | [], s => ([], s)
  | access :: rest, s =>
      let (reply, s) := access.on s
      let (replies, s) := onEach rest s
      (reply :: replies, s)

/-- The replies and the puts of operations, one after the other, on contents. -/
def evalEach : List (Access α) → Contents → List (Except Failure α) × List (Bytes × Bytes)
  | [], _ => ([], [])
  | access :: rest, c =>
      let (reply, puts) := access.eval c
      let (replies, more) := evalEach rest (c.write puts)
      (reply :: replies, puts ++ more)

/-- What operations come to on a recording store is told by its contents. -/
theorem onEach_eq_eval [RecordingStore σ] (accesses : List (Access α)) {s : σ} (h : Sound s) :
    ∃ s', onEach accesses s = ((evalEach accesses (contents s)).1, s') ∧
      contents s' = (contents s).write (evalEach accesses (contents s)).2 ∧
      journal s' = (evalEach accesses (contents s)).2.reverse ++ journal s := by
  induction accesses generalizing s with
  | nil => exact ⟨s, rfl, rfl, rfl⟩
  | cons access rest ih =>
      obtain ⟨s₁, hon, hs₁, hcontents, -⟩ := access.on_eq_eval h
      have hjournal : journal (access.on s).2 = _ := Dialogue.run_journal access.run h
      rw [hon] at hjournal
      obtain ⟨s₂, hrest, hcontents', hjournal'⟩ := ih hs₁
      rw [hcontents] at hrest hcontents' hjournal'
      refine ⟨s₂, ?_, ?_, ?_⟩
      · simp only [onEach, hon, hrest]
        rfl
      · rw [hcontents', ← Contents.write_append]
        rfl
      · rw [hjournal', hjournal, ← List.append_assoc, ← List.reverse_append]
        rfl

end Access

end Leaderboard
