import Leaderboard.Proofs.Store.Faithful
import Leaderboard.Proofs.Store.Interrupted
import Leaderboard.Proofs.Store.Replies
import Mathlib.Data.List.ReduceOption

/-!
# Stores whose reads fail

The stores of a `WritableStore` may fail to be read, but not to be written.  A `Faulty`
store is one.  It stands in front of a reliable store and has a pattern of the reads that
will fail.

`Dialogue.Meets` says what a dialogue that only reads comes to if some reads fail, and which
failures it meets.  The others tell the same contents throughout.  That is what becomes of it
on every faithful store (`Dialogue.meets_run`), and if no read fails then it is
what `Dialogue.eval` says.
-/

namespace Leaderboard

/-- A type of stores that are faithful and can always be written. -/
class WritableStore (σ : Type) [ByteStore σ] extends FaithfulStore σ where
  /-- A put succeeds. -/
  put_ok {s : σ} (key value : Bytes) (h : Sound s) : (ByteStore.put key value s).1 = .ok ()

/-! ## Patterns of failures -/

/-- A store of which some reads fail. -/
structure Faulty (σ : Type) where
  /-- The store behind. -/
  inner : σ
  /-- The next reads, each with its failure if it is to fail.  Those after them do not. -/
  faults : List (Option Failure)

namespace Faulty

variable {σ : Type} [ByteStore σ]

/-- Reads the store behind, unless the read is to fail. -/
def get (key : Bytes) : StoreM (Faulty σ) (Option Bytes) := fun s =>
  match s.faults with
  | some failure :: faults => (.error failure, { s with faults })
  | faults =>
      let (reply, inner) := ByteStore.get key s.inner
      (reply, { inner, faults := faults.tail })

/-- Writes the store behind. -/
def put (key value : Bytes) : StoreM (Faulty σ) Unit := fun s =>
  let (reply, inner) := ByteStore.put key value s.inner
  (reply, { s with inner })

instance : ByteStore (Faulty σ) where
  get := get
  put := put

variable [ReliableStore σ]

/-- A read fails by the pattern, or tells what the store behind holds. -/
theorem get_cases {s s' : Faulty σ} {r : Except Failure (Option Bytes)} {key : Bytes}
    (h : ReliableStore.Sound s.inner) (hget : ByteStore.get key s = (r, s')) :
    (ReliableStore.Sound s'.inner ∧
      ReliableStore.contents s'.inner = ReliableStore.contents s.inner) ∧
    ((∃ failure, r = .error failure ∧ s.faults = some failure :: s'.faults) ∨
      r = .ok (ReliableStore.contents s.inner key) ∧
        s.faults.reduceOption = s'.faults.reduceOption) := by
  change get key s = _ at hget
  rw [get] at hget
  split at hget
  next failure faults hfaults =>
    cases hget
    exact ⟨⟨h, rfl⟩, .inl ⟨failure, rfl, hfaults⟩⟩
  next hnot =>
    obtain ⟨inner, hinner, hsound, hcontents⟩ := ReliableStore.get_eq key h
    rw [hinner] at hget
    cases hget
    refine ⟨⟨hsound, hcontents⟩, .inr ⟨rfl, ?_⟩⟩
    rcases hfaults : s.faults with _ | ⟨_ | failure, faults⟩
    · rfl
    · rfl
    · exact absurd hfaults (hnot failure faults)

instance : WritableStore (Faulty σ) where
  Sound s := ReliableStore.Sound s.inner
  contents s := ReliableStore.contents s.inner
  get_holds := by
    intro s s' r key h hget
    obtain ⟨⟨hsound, hcontents⟩, hreply⟩ := get_cases h hget
    refine ⟨hsound, hcontents, fun value hvalue => ?_⟩
    rcases hreply with ⟨failure, hr, -⟩ | ⟨hr, -⟩
    · rw [hr] at hvalue
      cases hvalue
    · rw [hr] at hvalue
      cases hvalue
      rfl
  put_holds := by
    intro s s' r key value h hput
    obtain ⟨inner, hinner, hsound, hcontents⟩ := ReliableStore.put_eq key value h
    change put key value s = _ at hput
    rw [put, hinner] at hput
    cases hput
    exact ⟨hsound, fun _ => hcontents, nofun⟩
  put_ok := by
    intro s key value h
    obtain ⟨inner, hinner, -, -⟩ := ReliableStore.put_eq key value h
    show (put key value s).1 = _
    rw [put, hinner]

end Faulty

/-! ## Dialogues that meet failures -/

namespace Dialogue

variable {α β : Type} {c : Contents}

/-- The dialogue makes no puts, whatever it is replied. -/
def ReadOnly : Dialogue α → Prop
  | answer _ => True
  | get _ next => ∀ reply, (next reply).ReadOnly
  | put .. => False

theorem ReadOnly.bind {d : Dialogue α} {f : α → Dialogue β} (h : d.ReadOnly)
    (hf : ∀ a, (f a).ReadOnly) : (d >>= f).ReadOnly := by
  induction d with
  | answer a => exact hf a
  | get key next ih => exact fun reply => ih reply (h reply)
  | put key value next ih => exact h.elim

/-- What reads and gives up at a failed read makes no puts. -/
theorem Reads.readOnly {Q : Except Failure α → Prop} {d : Dialogue (Except Failure α)}
    (h : d.Reads Q) : d.ReadOnly := by
  induction d with
  | answer r => trivial
  | get key next ih =>
      intro reply
      cases reply with
      | ok value => exact ih _ (h.2 value)
      | error failure =>
          rw [h.1 failure]
          trivial
  | put key value next ih => exact h.elim

/-- A dialogue that only reads leaves a faithful store as it was. -/
theorem ReadOnly.run_holds {σ : Type} [ByteStore σ] [FaithfulStore σ] {d : Dialogue α}
    (h : d.ReadOnly) {s : σ} (hs : FaithfulStore.Sound s) :
    FaithfulStore.Sound (d.run s).2 ∧
      FaithfulStore.contents (d.run s).2 = FaithfulStore.contents s := by
  induction d generalizing s with
  | answer a => exact ⟨hs, rfl⟩
  | get key next ih =>
      cases hget : ByteStore.get key s with
      | mk reply s' =>
          obtain ⟨hs', hcontents, -⟩ := FaithfulStore.get_holds hs hget
          rw [run_get, hget, ← hcontents]
          exact ih reply (h reply) hs'
  | put key value next ih => exact h.elim

/-- The failures of the reads of a dialogue with a store, in their order. -/
def failures {σ : Type} [ByteStore σ] (d : Dialogue α) (s : σ) : List Failure :=
  (d.replies s).filterMap fun read =>
    match read.2 with
    | .error failure => some failure
    | .ok _ => none

theorem failures_bind {σ : Type} [ByteStore σ] (d : Dialogue α) (f : α → Dialogue β) (s : σ) :
    (d >>= f).failures s = d.failures s ++ (f (d.run s).1).failures (d.run s).2 := by
  rw [failures, replies_bind, List.filterMap_append]
  rfl

/-- A dialogue that only reads meets some failures and has some answer, if the reads that do not
fail tell the contents. -/
inductive Meets (c : Contents) : Dialogue α → List Failure → α → Prop where
  /-- It ends. -/
  | answer (a : α) : Meets c (answer a) [] a
  /-- A read tells the contents. -/
  | told {key : Bytes} {next : Except Failure (Option Bytes) → Dialogue α} {fs : List Failure}
      {a : α} (h : Meets c (next (.ok (c key))) fs a) : Meets c (get key next) fs a
  /-- A read fails. -/
  | failed {key : Bytes} {next : Except Failure (Option Bytes) → Dialogue α} {fs : List Failure}
      {a : α} (failure : Failure) (h : Meets c (next (.error failure)) fs a) :
      Meets c (get key next) (failure :: fs) a

/-- Of two dialogues in sequence, each meets its part of the failures. -/
theorem Meets.of_bind {d : Dialogue α} {f : α → Dialogue β} {fs : List Failure} {b : β}
    (h : Meets c (d >>= f) fs b) :
    ∃ fs₁ fs₂ a, fs = fs₁ ++ fs₂ ∧ Meets c d fs₁ a ∧ Meets c (f a) fs₂ b := by
  induction d generalizing fs with
  | answer a => exact ⟨[], fs, a, rfl, .answer a, h⟩
  | get key next ih =>
      cases h with
      | told h =>
          obtain ⟨fs₁, fs₂, a, rfl, h₁, h₂⟩ := ih _ h
          exact ⟨fs₁, fs₂, a, rfl, .told h₁, h₂⟩
      | failed failure h =>
          obtain ⟨fs₁, fs₂, a, rfl, h₁, h₂⟩ := ih _ h
          exact ⟨failure :: fs₁, fs₂, a, rfl, .failed failure h₁, h₂⟩
  | put key value next ih => cases h

/-- A dialogue that meets no failures is the one that `eval` describes. -/
theorem Meets.eval_eq {d : Dialogue α} {a : α} (h : Meets c d [] a) : d.eval c = (a, []) := by
  induction d with
  | answer b =>
      cases h
      rfl
  | get key next ih =>
      cases h with
      | told h => exact ih _ h
  | put key value next ih => cases h

/-- A dialogue that gives up meets one failure at most, and ends with it. -/
theorem GivesUp.of_meets {d : Dialogue (Except Failure α)} (hd : d.GivesUp) {failure : Failure}
    {fs : List Failure} {outcome : Except Failure α} (h : Meets c d (failure :: fs) outcome) :
    fs = [] ∧ outcome = .error failure := by
  induction d with
  | answer r => cases h
  | get key next ih =>
      cases h with
      | told h => exact ih _ (hd.2 _) h
      | failed failure h =>
          rw [hd.1 failure] at h
          cases h
          exact ⟨rfl, rfl⟩
  | put key value next ih => cases h

/-- A dialogue that ends has met nothing. -/
theorem Meets.of_answer {a b : α} {fs : List Failure} (h : Meets c (.answer a) fs b) :
    fs = [] ∧ b = a := by
  cases h
  exact ⟨rfl, rfl⟩

/-- What becomes of a dialogue that only reads on a faithful store. -/
theorem meets_run {σ : Type} [ByteStore σ] [FaithfulStore σ] {d : Dialogue α} (h : d.ReadOnly)
    {s : σ} (hs : FaithfulStore.Sound s) :
    Meets (FaithfulStore.contents s) d (d.failures s) (d.run s).1 := by
  induction d generalizing s with
  | answer a => exact .answer a
  | get key next ih =>
      cases hget : ByteStore.get key s with
      | mk reply s' =>
          obtain ⟨hs', hcontents, htells⟩ := FaithfulStore.get_holds hs hget
          have hrest := ih reply (h reply) hs'
          rw [hcontents] at hrest
          rw [failures, replies, run_get, hget]
          cases reply with
          | error failure => exact .failed failure hrest
          | ok value =>
              cases htells value rfl
              exact .told hrest
  | put key value next ih => exact h.elim

end Dialogue

/-- The failures that a dialogue meets are the next ones of the pattern. -/
theorem Faulty.failures_append {α σ : Type} [ByteStore σ] [ReliableStore σ] {d : Dialogue α}
    (h : d.ReadOnly) {s : Faulty σ} (hs : ReliableStore.Sound s.inner) :
    d.failures s ++ (d.run s).2.faults.reduceOption = s.faults.reduceOption := by
  induction d generalizing s with
  | answer a => rfl
  | get key next ih =>
      cases hget : ByteStore.get key s with
      | mk reply s' =>
          obtain ⟨⟨hs', -⟩, hreply⟩ := Faulty.get_cases hs hget
          have hrest := ih reply (h reply) hs'
          rw [Dialogue.failures, Dialogue.replies, Dialogue.run_get, hget]
          rcases hreply with ⟨failure, rfl, hfaults⟩ | ⟨rfl, hfaults⟩
          · rw [hfaults, List.reduceOption_cons_of_some, ← hrest]
            rfl
          · rw [hfaults, ← hrest]
            rfl
  | put key value next ih => exact h.elim

end Leaderboard
