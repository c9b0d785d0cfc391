import Leaderboard.Proofs.Store.Faulty
import Leaderboard.Proofs.Store.Interrupted

/-!
# Operations that write at the end

`Dialogue.Commits` says of a dialogue that it comes in two parts, whatever it is replied.  It
reads first, and may end at any moment.  Once it puts something it only puts, and if no put
fails it ends with one of certain answers.

So on a store that can always be written, a dialogue that does not end with such an answer has
put nothing and has left the store as it was (`Dialogue.Commits.run`).
-/

namespace Leaderboard

open FaithfulStore (Sound contents)

namespace Dialogue

variable {α β : Type} {Q : α → Prop} {R : β → Prop}

/-- The dialogue only puts, and if no put fails it ends with one of these answers. -/
def Carries (Q : α → Prop) : Dialogue α → Prop
  | answer a => Q a
  | get .. => False
  | put _ _ next => (next (.ok ())).Carries Q

/-- The dialogue reads first.  Once it puts something it only puts, and if no put fails it ends
with one of these answers. -/
def Commits (Q : α → Prop) : Dialogue α → Prop
  | answer _ => True
  | get _ next => ∀ reply, (next reply).Commits Q
  | put _ _ next => (next (.ok ())).Carries Q

theorem Carries.bind {d : Dialogue α} {f : α → Dialogue β} (h : d.Carries Q)
    (hf : ∀ a, Q a → (f a).Carries R) : (d >>= f).Carries R := by
  induction d with
  | answer a => exact hf a h
  | get key next ih => exact h.elim
  | put key value next ih => exact ih _ h

theorem Carries.commits {d : Dialogue α} (h : d.Carries Q) : d.Commits Q := by
  cases d with
  | answer a => trivial
  | get key next => exact h.elim
  | put key value next => exact h

/-- What reads and gives up at a failed read may come first. -/
theorem Reads.commits {P : Except Failure α → Prop} {Q : Except Failure β → Prop}
    {d : Dialogue (Except Failure α)} {f : Except Failure α → Dialogue (Except Failure β)}
    (h : d.Reads P) (hf : ∀ a, (f (.ok a)).Commits Q)
    (herror : ∀ failure, f (.error failure) = answer (.error failure)) : (d >>= f).Commits Q := by
  have hfails : ∀ failure, (f (.error failure)).Commits Q := by
    intro failure
    rw [herror]
    trivial
  induction d with
  | answer r =>
      cases r with
      | ok a => exact hf a
      | error failure => exact hfails failure
  | get key next ih =>
      intro reply
      cases reply with
      | ok value => exact ih _ (h.2 value)
      | error failure =>
          show (next (.error failure) >>= f).Commits Q
          rw [h.1 failure]
          exact hfails failure
  | put key value next ih => exact h.elim

section

variable {σ : Type} [ByteStore σ] [WritableStore σ]

theorem Carries.run {d : Dialogue α} (h : d.Carries Q) {s : σ} (hs : Sound s) :
    Q (d.run s).1 := by
  induction d generalizing s with
  | answer a => exact h
  | get key next ih => exact h.elim
  | put key value next ih =>
      cases hput : ByteStore.put key value s with
      | mk reply s' =>
          obtain ⟨hs', -, -⟩ := FaithfulStore.put_holds hs hput
          have hok := WritableStore.put_ok key value hs
          rw [hput] at hok
          rw [run_put, hput, hok]
          exact ih _ h hs'

/-- A dialogue that does not end with one of these answers has put nothing. -/
theorem Commits.run {d : Dialogue α} (h : d.Commits Q) {s : σ} (hs : Sound s) :
    Q (d.run s).1 ∨ d.puts s = [] ∧ contents (d.run s).2 = contents s := by
  induction d generalizing s with
  | answer a => exact .inr ⟨rfl, rfl⟩
  | get key next ih =>
      cases hget : ByteStore.get key s with
      | mk reply s' =>
          obtain ⟨hs', hcontents, -⟩ := FaithfulStore.get_holds hs hget
          rw [run_get, puts, hget, ← hcontents]
          exact ih reply (h reply) hs'
  | put key value next ih => exact .inl (Carries.run (d := .put key value next) h hs)

end

end Dialogue

namespace Access

variable {α β : Type} {Q : Except Failure β → Prop} {access : Access α} {f : α → Access β}

/-- The operation only puts, and succeeds if no put fails. -/
def Succeeds (access : Access α) : Prop :=
  Dialogue.Carries (fun outcome => ∃ a, outcome = .ok a) access.run

/-- The operation reads first.  Once it puts something it only puts, and if no put fails it has
one of these outcomes. -/
def Commits (Q : Except Failure β → Prop) (access : Access β) : Prop :=
  Dialogue.Commits Q access.run

theorem succeeds_pure (a : α) : (pure a : Access α).Succeeds := ⟨a, rfl⟩

theorem succeeds_put (key value : Bytes) : (put key value).Succeeds := ⟨(), rfl⟩

theorem Succeeds.bind (h : access.Succeeds) (hf : ∀ a, (f a).Succeeds) :
    (access >>= f).Succeeds := by
  refine Dialogue.Carries.bind h ?_
  rintro _ ⟨a, rfl⟩
  exact hf a

/-- An operation that only puts may be followed by an answer. -/
theorem Succeeds.commits (h : access.Succeeds) {b : β} (hb : Q (.ok b)) :
    (access >>= fun _ => pure b).Commits Q := by
  refine (Dialogue.Carries.bind h ?_).commits
  rintro _ ⟨a, rfl⟩
  exact hb

theorem commits_pure (b : β) : (pure b : Access β).Commits Q := trivial

theorem Reads.commits {P : Except Failure α → Prop} (h : access.Reads P)
    (hf : ∀ a, (f a).Commits Q) : (access >>= f).Commits Q :=
  Dialogue.Reads.commits h hf fun _ => rfl

end Access

end Leaderboard
