import Leaderboard.Store.Basic

/-!
# Dialogues with a store

What the tree does to a store is a `Dialogue`: it ends with an answer, or it
reads or writes one record and goes on with the store's reply.  A dialogue says
which records are asked for in which order, and nothing about the store, so one
dialogue can be held with any store (`Dialogue.run`).

A dialogue hears of a failed read or write as a reply.  An `Access` is a dialogue
that gives up at the first failure.
-/

namespace Leaderboard

/-- A computation that reads and writes the records of some store. -/
inductive Dialogue (α : Type) where
  /-- It ends with an answer. -/
  | answer (a : α)
  /-- It reads a record and goes on with the reply. -/
  | get (key : Bytes) (next : Except Failure (Option Bytes) → Dialogue α)
  /-- It writes a record and goes on with the reply. -/
  | put (key value : Bytes) (next : Except Failure Unit → Dialogue α)

namespace Dialogue

/-- Goes on with another dialogue after the answer. -/
def bind {α β : Type} : Dialogue α → (α → Dialogue β) → Dialogue β
  | answer a, f => f a
  | get key next, f => get key fun reply => bind (next reply) f
  | put key value next, f => put key value fun reply => bind (next reply) f

instance : Monad Dialogue where
  pure := answer
  bind := bind

@[simp] theorem pure_eq {α : Type} (a : α) : (pure a : Dialogue α) = answer a := rfl

@[simp] theorem answer_bind {α β : Type} (a : α) (f : α → Dialogue β) :
    (answer a >>= f) = f a := rfl

@[simp] theorem get_bind {α β : Type} (key : Bytes)
    (next : Except Failure (Option Bytes) → Dialogue α) (f : α → Dialogue β) :
    (get key next >>= f) = get key fun reply => next reply >>= f := rfl

@[simp] theorem put_bind {α β : Type} (key value : Bytes) (next : Except Failure Unit → Dialogue α)
    (f : α → Dialogue β) :
    (put key value next >>= f) = put key value fun reply => next reply >>= f := rfl

theorem bind_answer {α : Type} (d : Dialogue α) : (d >>= answer) = d := by
  induction d with
  | answer a => rfl
  | get key next ih => exact congrArg (get key) (funext ih)
  | put key value next ih => exact congrArg (put key value) (funext ih)

theorem bind_assoc {α β γ : Type} (d : Dialogue α) (f : α → Dialogue β) (g : β → Dialogue γ) :
    (d >>= f >>= g) = d >>= fun a => f a >>= g := by
  induction d with
  | answer a => rfl
  | get key next ih => exact congrArg (get key) (funext ih)
  | put key value next ih => exact congrArg (put key value) (funext ih)

instance : LawfulMonad Dialogue :=
  LawfulMonad.mk' Dialogue (fun d => bind_answer d) (fun _ _ => rfl) bind_assoc

/-- Holds the dialogue with a store. -/
def run {α σ : Type} [ByteStore σ] : Dialogue α → StateM σ α
  | answer a => pure a
  | get key next => do run (next (← (ByteStore.get key).run))
  | put key value next => do run (next (← (ByteStore.put key value).run))

@[simp] theorem run_answer {α σ : Type} [ByteStore σ] (a : α) (s : σ) :
    (answer a).run s = (a, s) := rfl

@[simp] theorem run_get {α σ : Type} [ByteStore σ] (key : Bytes)
    (next : Except Failure (Option Bytes) → Dialogue α) (s : σ) :
    (get key next).run s =
      (next (ByteStore.get key s).1).run (ByteStore.get (σ := σ) key s).2 := rfl

@[simp] theorem run_put {α σ : Type} [ByteStore σ] (key value : Bytes)
    (next : Except Failure Unit → Dialogue α) (s : σ) :
    (put key value next).run s =
      (next (ByteStore.put key value s).1).run (ByteStore.put (σ := σ) key value s).2 := rfl

/-- A dialogue that goes on is held in one piece or in two. -/
theorem run_bind {α β σ : Type} [ByteStore σ] (d : Dialogue α) (f : α → Dialogue β) (s : σ) :
    (d >>= f).run s = (f (d.run s).1).run (d.run s).2 := by
  induction d generalizing s with
  | answer a => rfl
  | get key next ih => exact ih _ _
  | put key value next ih => exact ih _ _

end Dialogue

/-- A dialogue that gives up at the first failure. -/
abbrev Access := ExceptT Failure Dialogue

namespace Access

/-- Reads a record. -/
def get (key : Bytes) : Access (Option Bytes) := ExceptT.mk (.get key .answer)

/-- Writes a record. -/
def put (key value : Bytes) : Access Unit := ExceptT.mk (.put key value .answer)

/-- Holds the dialogue with a store. -/
def on {α σ : Type} [ByteStore σ] (access : Access α) : StoreM σ α :=
  ExceptT.mk (Dialogue.run (ExceptT.run access))

end Access

end Leaderboard
