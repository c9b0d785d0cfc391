import Leaderboard.Proofs.Store.Contents
import Leaderboard.Store.Metered

/-!
# Operations that break off

An operation gives up at the first failure (`Access.GivesUp`).  So if a store lets
only some puts through, the operation leaves the first of the puts that it would
make (`Access.interrupted_eq`), and nothing of what it does after them.

`Access.Reads` says of an operation that it makes no puts, and that its outcome has
some property, whatever it reads.
-/

namespace Leaderboard

/-! ## Dialogues that give up -/

namespace Dialogue

variable {α β : Type}

/-- A failed read or put ends the dialogue with the failure. -/
def GivesUp : Dialogue (Except Failure α) → Prop
  | answer _ => True
  | get _ next =>
      (∀ failure, next (.error failure) = answer (.error failure)) ∧
        ∀ value, (next (.ok value)).GivesUp
  | put _ _ next =>
      (∀ failure, next (.error failure) = answer (.error failure)) ∧ (next (.ok ())).GivesUp

/-- The dialogue has no puts, a failed read ends it, and else it ends with some outcomes only. -/
def Reads (Q : Except Failure α → Prop) : Dialogue (Except Failure α) → Prop
  | answer r => Q r
  | get _ next =>
      (∀ failure, next (.error failure) = answer (.error failure)) ∧
        ∀ value, (next (.ok value)).Reads Q
  | put .. => False

theorem GivesUp.bind {d : Dialogue (Except Failure α)}
    {f : Except Failure α → Dialogue (Except Failure β)} (h : d.GivesUp)
    (hf : ∀ a, (f (.ok a)).GivesUp)
    (herror : ∀ failure, f (.error failure) = answer (.error failure)) : (d >>= f).GivesUp := by
  induction d with
  | answer r =>
      cases r with
      | ok a => exact hf a
      | error failure =>
          rw [answer_bind, herror]
          trivial
  | get key next ih =>
      refine ⟨fun failure => ?_, fun value => ih _ (h.2 value)⟩
      exact (congrArg (· >>= f) (h.1 failure)).trans (herror failure)
  | put key value next ih =>
      refine ⟨fun failure => ?_, ih _ h.2⟩
      exact (congrArg (· >>= f) (h.1 failure)).trans (herror failure)

theorem Reads.bind {Q : Except Failure α → Prop} {R : Except Failure β → Prop}
    {d : Dialogue (Except Failure α)} {f : Except Failure α → Dialogue (Except Failure β)}
    (h : d.Reads Q) (hf : ∀ a, Q (.ok a) → (f (.ok a)).Reads R)
    (herror : ∀ failure, f (.error failure) = answer (.error failure))
    (hR : ∀ failure, Q (.error failure) → R (.error failure)) : (d >>= f).Reads R := by
  induction d with
  | answer r =>
      cases r with
      | ok a => exact hf a h
      | error failure =>
          rw [answer_bind, herror]
          exact hR failure h
  | get key next ih =>
      refine ⟨fun failure => ?_, fun value => ih _ (h.2 value)⟩
      exact (congrArg (· >>= f) (h.1 failure)).trans (herror failure)
  | put key value next ih => exact h.elim

theorem Reads.mono {Q R : Except Failure α → Prop} {d : Dialogue (Except Failure α)}
    (h : d.Reads Q) (hQ : ∀ outcome, Q outcome → R outcome) : d.Reads R := by
  induction d with
  | answer r => exact hQ r h
  | get key next ih => exact ⟨h.1, fun value => ih _ (h.2 value)⟩
  | put key value next ih => exact h.elim

theorem Reads.givesUp {Q : Except Failure α → Prop} {d : Dialogue (Except Failure α)}
    (h : d.Reads Q) : d.GivesUp := by
  induction d with
  | answer r => trivial
  | get key next ih => exact ⟨h.1, fun value => ih _ (h.2 value)⟩
  | put key value next ih => exact h.elim

theorem Reads.eval {Q : Except Failure α → Prop} {d : Dialogue (Except Failure α)}
    (h : d.Reads Q) (c : Contents) : Q (d.eval c).1 ∧ (d.eval c).2 = [] := by
  induction d with
  | answer r => exact ⟨h, rfl⟩
  | get key next ih => exact ih _ (h.2 _)
  | put key value next ih => exact h.elim

end Dialogue

/-! ## Operations that give up -/

namespace Access

variable {α β : Type}

/-- A failed read or put ends the operation with the failure. -/
def GivesUp (access : Access α) : Prop := Dialogue.GivesUp access.run

/-- The operation makes no puts, and its outcome has some property whatever it reads. -/
def Reads (Q : Except Failure α → Prop) (access : Access α) : Prop := Dialogue.Reads Q access.run

variable {Q : Except Failure α → Prop} {R : Except Failure β → Prop} {access : Access α}
  {f : α → Access β}

theorem givesUp_pure (a : α) : (pure a : Access α).GivesUp := trivial

theorem givesUp_put (key value : Bytes) : (put key value).GivesUp := ⟨fun _ => rfl, trivial⟩

theorem GivesUp.bind (h : access.GivesUp) (hf : ∀ a, (f a).GivesUp) : (access >>= f).GivesUp :=
  Dialogue.GivesUp.bind h hf fun _ => rfl

theorem reads_pure {a : α} (h : Q (.ok a)) : Reads Q (pure a) := h

theorem reads_throw {failure : Failure} (h : Q (.error failure)) : Reads Q (throw failure) := h

theorem reads_get {Q : Except Failure (Option Bytes) → Prop} (h : ∀ value, Q (.ok value))
    (key : Bytes) : Reads Q (get key) :=
  ⟨fun _ => rfl, h⟩

theorem Reads.bind (h : Reads Q access) (hf : ∀ a, Q (.ok a) → Reads R (f a))
    (hR : ∀ failure, Q (.error failure) → R (.error failure)) : Reads R (access >>= f) :=
  Dialogue.Reads.bind h hf (fun _ => rfl) hR

theorem Reads.mono {Q' : Except Failure α → Prop} (h : Reads Q access)
    (hQ : ∀ outcome, Q outcome → Q' outcome) : Reads Q' access :=
  Dialogue.Reads.mono h hQ

theorem Reads.givesUp (h : Reads Q access) : access.GivesUp := Dialogue.Reads.givesUp h

/-- An operation that makes no puts ends with an outcome that has the property. -/
theorem Reads.eval (h : Reads Q access) (c : Contents) :
    ∃ outcome, access.eval c = (outcome, []) ∧ Q outcome := by
  obtain ⟨hQ, hputs⟩ := Dialogue.Reads.eval h c
  exact ⟨(access.eval c).1, Prod.ext rfl hputs, hQ⟩

/-! ## Breaking off -/

/-- What an operation leaves in a store that lets only so many puts through. -/
def interrupted {σ : Type} [ByteStore σ] (access : Access α) (puts : Nat) (store : σ) : σ :=
  (access.on ({ inner := store, putBudget := some puts } : Metered σ)).2.inner

end Access

open ReliableStore (Sound contents)

section

variable {α σ : Type} [ByteStore σ] [ReliableStore σ]

/-- A dialogue that gives up leaves the first of its puts. -/
theorem Dialogue.GivesUp.run_metered {d : Dialogue (Except Failure α)} (h : d.GivesUp)
    {m : Metered σ} {n : Nat} (hm : Sound m.inner) (hgets : m.getBudget = none)
    (hputs : m.putBudget = some n) :
    Sound (d.run m).2.inner ∧
      contents (d.run m).2.inner =
        (contents m.inner).write ((d.eval (contents m.inner)).2.take n) := by
  induction d generalizing m n with
  | answer r => exact ⟨hm, by rw [eval, List.take_nil]; rfl⟩
  | get key next ih =>
      obtain ⟨inner, hget, hinner, hcontents⟩ := ReliableStore.get_eq key hm
      have hstep : ByteStore.get key m =
          (.ok (contents m.inner key), { m with inner, reads := m.reads + 1 }) := by
        show Metered.get key m = _
        simp only [Metered.get, hgets, hget]
        rfl
      have hrun := ih (.ok (contents m.inner key)) (h.2 _)
        (m := { m with inner, reads := m.reads + 1 }) hinner hgets hputs
      rw [hcontents] at hrun
      rw [run_get, hstep]
      exact hrun
  | put key value next ih =>
      cases n with
      | zero =>
          have hstep : ByteStore.put key value m = (.error Metered.outOfBudget, m) := by
            show Metered.put key value m = _
            simp only [Metered.put, hputs, if_pos]
          rw [run_put, hstep, h.1, List.take_zero]
          exact ⟨hm, rfl⟩
      | succ n =>
          obtain ⟨inner, hput, hinner, hcontents⟩ := ReliableStore.put_eq key value hm
          have hstep : ByteStore.put key value m = (.ok (),
              { m with inner, putBudget := some n, journal := (key, value) :: m.journal }) := by
            show Metered.put key value m = _
            simp only [Metered.put, hputs, hput]
            rfl
          have hrun := ih (.ok ()) h.2
            (m := { m with inner, putBudget := some n, journal := (key, value) :: m.journal })
            hinner hgets rfl
          rw [hcontents] at hrun
          rw [run_put, hstep]
          exact hrun

/-- An operation that gives up leaves the first of its puts. -/
theorem Access.interrupted_eq {access : Access α} (h : access.GivesUp) {store : σ}
    (hstore : Sound store) (n : Nat) :
    Sound (access.interrupted n store) ∧
      contents (access.interrupted n store) =
        (contents store).write ((access.eval (contents store)).2.take n) :=
  Dialogue.GivesUp.run_metered h (m := { inner := store, putBudget := some n }) hstore rfl rfl

end

end Leaderboard
