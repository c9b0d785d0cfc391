import Leaderboard.Store.Dialogue
import Leaderboard.Store.Memory

/-!
# What a dialogue comes to

`Contents` is what a store holds, as a function from keys to values.  A dialogue
with a store that never fails depends on nothing else: `Dialogue.eval` gives its
answer and the puts it makes, in their order, and the store then holds
`Contents.write` of those puts.

A store type whose stores never fail and do hold what they are given is a
`ReliableStore`.  `Dialogue.run_eq_eval` says that a dialogue held with such a
store is the one `eval` describes.  So what is said below about contents holds
of every reliable store, and `MemoryStore` is one.

`Dialogue.puts` lists the puts of a dialogue with any store, failed ones
included.
-/

namespace Leaderboard

/-! ## Contents -/

/-- What a store holds: the value of each key that has one. -/
abbrev Contents := Bytes → Option Bytes

namespace Contents

/-- The contents after a put. -/
def put (c : Contents) (key value : Bytes) : Contents :=
  fun k => if k = key then some value else c k

/-- The contents after some puts. -/
def write (c : Contents) : List (Bytes × Bytes) → Contents
  | [] => c
  | (key, value) :: puts => (c.put key value).write puts

@[simp] theorem put_self (c : Contents) (key value : Bytes) :
    c.put key value key = some value := by
  simp [put]

theorem put_of_ne {key k : Bytes} (c : Contents) (value : Bytes) (h : k ≠ key) :
    c.put key value k = c k := by
  simp [put, h]

@[simp] theorem write_nil (c : Contents) : c.write [] = c := rfl

@[simp] theorem write_cons (c : Contents) (key value : Bytes) (puts : List (Bytes × Bytes)) :
    c.write ((key, value) :: puts) = (c.put key value).write puts := rfl

theorem write_append (c : Contents) (ps qs : List (Bytes × Bytes)) :
    c.write (ps ++ qs) = (c.write ps).write qs := by
  induction ps generalizing c with
  | nil => rfl
  | cons p ps ih => exact ih _

/-- A key keeps its value or gets that of a put. -/
theorem write_cases (c : Contents) (puts : List (Bytes × Bytes)) (k : Bytes) :
    (c.write puts k = c k ∧ ∀ p ∈ puts, p.1 ≠ k) ∨
      ∃ value, (k, value) ∈ puts ∧ c.write puts k = some value := by
  induction puts generalizing c with
  | nil => exact .inl ⟨rfl, by simp⟩
  | cons p ps ih =>
      rw [write_cons]
      rcases ih (c.put p.1 p.2) with ⟨h, hne⟩ | ⟨value, hmem, h⟩
      · by_cases hk : k = p.1
        · exact .inr ⟨p.2, hk ▸ .head _, by rw [h, hk, put_self]⟩
        · refine .inl ⟨by rw [h, put_of_ne c p.2 hk], fun q hq => ?_⟩
          rcases List.mem_cons.mp hq with rfl | hq
          · exact Ne.symm hk
          · exact hne q hq
      · exact .inr ⟨value, .tail _ hmem, h⟩

/-- A key that no put names keeps its value. -/
theorem write_of_forall_ne {puts : List (Bytes × Bytes)} {k : Bytes}
    (h : ∀ p ∈ puts, p.1 ≠ k) (c : Contents) : c.write puts k = c k := by
  rcases c.write_cases puts k with ⟨hsame, -⟩ | ⟨value, hmem, -⟩
  · exact hsame
  · exact absurd rfl (h _ hmem)

/-- Puts make of equal values of a key equal values. -/
theorem write_congr {c c' : Contents} {k : Bytes} (h : c k = c' k)
    (puts : List (Bytes × Bytes)) : c.write puts k = c'.write puts k := by
  induction puts generalizing c c' with
  | nil => exact h
  | cons p puts ih => exact ih (by simp only [put, h])

end Contents

/-! ## Dialogues with contents -/

namespace Dialogue

variable {α β : Type}

/-- The answer and the puts of a dialogue with a store that holds `c` and does not
fail. -/
def eval : Dialogue α → Contents → α × List (Bytes × Bytes)
  | answer a, _ => (a, [])
  | get key next, c => (next (.ok (c key))).eval c
  | put key value next, c =>
      let (a, puts) := (next (.ok ())).eval (c.put key value)
      (a, (key, value) :: puts)

theorem eval_bind (d : Dialogue α) (f : α → Dialogue β) (c : Contents) :
    (d >>= f).eval c =
      (((f (d.eval c).1).eval (c.write (d.eval c).2)).1,
        (d.eval c).2 ++ ((f (d.eval c).1).eval (c.write (d.eval c).2)).2) := by
  induction d generalizing c with
  | answer a => rfl
  | get key next ih => exact ih _ c
  | put key value next ih =>
      rw [put_bind, eval, ih]
      rfl

/-- The puts of a dialogue with a store, failed ones included. -/
def puts {σ : Type} [ByteStore σ] : Dialogue α → σ → List (Bytes × Bytes)
  | answer _, _ => []
  | get key next, s =>
      (next (ByteStore.get key s).1).puts (ByteStore.get (σ := σ) key s).2
  | put key value next, s =>
      (key, value) ::
        (next (ByteStore.put key value s).1).puts (ByteStore.put (σ := σ) key value s).2

end Dialogue

/-! ## Reliable stores -/

/-- A type of stores that never fail, and that read back what they are given. -/
class ReliableStore (σ : Type) [ByteStore σ] where
  /-- What holds of every store that can come about. -/
  Sound : σ → Prop
  /-- What a store holds. -/
  contents : σ → Contents
  /-- A read succeeds, tells what the store holds, and changes nothing of that. -/
  get_eq {s : σ} (key : Bytes) (h : Sound s) :
    ∃ s', ByteStore.get key s = (.ok (contents s key), s') ∧ Sound s' ∧ contents s' = contents s
  /-- A put succeeds and is the only change. -/
  put_eq {s : σ} (key value : Bytes) (h : Sound s) :
    ∃ s', ByteStore.put key value s = (.ok (), s') ∧ Sound s' ∧
      contents s' = (contents s).put key value

open ReliableStore (Sound contents)

theorem MemoryStore.getElem?_insert (records : Std.TreeMap Bytes Bytes) (key value : Bytes) :
    (fun k => (records.insert key value)[k]?) = Contents.put (fun k => records[k]?) key value := by
  funext k
  simp only [Std.TreeMap.getElem?_insert, Std.LawfulEqOrd.compare_eq_iff_eq, Contents.put,
    @eq_comm _ k]

instance : ReliableStore MemoryStore where
  Sound _ := True
  contents store key := store.records[key]?
  get_eq _ _ := ⟨_, rfl, trivial, rfl⟩
  put_eq key value _ := ⟨_, rfl, trivial, MemoryStore.getElem?_insert _ key value⟩

/-- A dialogue with a reliable store is a dialogue with its contents. -/
theorem Dialogue.run_eq_eval {α σ : Type} [ByteStore σ] [ReliableStore σ] (d : Dialogue α)
    {s : σ} (h : Sound s) :
    ∃ s', d.run s = ((d.eval (contents s)).1, s') ∧ Sound s' ∧
      contents s' = (contents s).write (d.eval (contents s)).2 ∧
      d.puts s = (d.eval (contents s)).2 := by
  induction d generalizing s with
  | answer a => exact ⟨s, rfl, h, rfl, rfl⟩
  | get key next ih =>
      obtain ⟨s₁, hget, hs₁, hc₁⟩ := ReliableStore.get_eq key h
      obtain ⟨s₂, hrun, hs₂, hc₂, hputs⟩ := ih (.ok (contents s key)) hs₁
      rw [hc₁] at hrun hc₂ hputs
      refine ⟨s₂, ?_, hs₂, hc₂, ?_⟩
      · rw [run_get, hget]
        exact hrun
      · rw [puts, hget]
        exact hputs
  | put key value next ih =>
      obtain ⟨s₁, hput, hs₁, hc₁⟩ := ReliableStore.put_eq key value h
      obtain ⟨s₂, hrun, hs₂, hc₂, hputs⟩ := ih (.ok ()) hs₁
      rw [hc₁] at hrun hc₂ hputs
      refine ⟨s₂, ?_, hs₂, hc₂, ?_⟩
      · rw [run_put, hput]
        exact hrun
      · rw [puts, hput]
        exact congrArg _ hputs

/-! ## Operations on contents -/

namespace Access

variable {α β : Type}

/-- The outcome and the puts of an operation on a store that holds `c` and does not
fail. -/
def eval (access : Access α) (c : Contents) : Except Failure α × List (Bytes × Bytes) :=
  Dialogue.eval access.run c

@[simp] theorem eval_pure (a : α) (c : Contents) :
    (pure a : Access α).eval c = (.ok a, []) := rfl

@[simp] theorem eval_throw (failure : Failure) (c : Contents) :
    (throw failure : Access α).eval c = (.error failure, []) := rfl

@[simp] theorem eval_get (key : Bytes) (c : Contents) :
    (get key).eval c = (.ok (c key), []) := rfl

@[simp] theorem eval_put (key value : Bytes) (c : Contents) :
    (put key value).eval c = (.ok (), [(key, value)]) := rfl

theorem run_bind (access : Access α) (f : α → Access β) :
    (access >>= f).run = access.run >>= ExceptT.bindCont f := rfl

/-- An operation that succeeds goes on where its puts have led. -/
theorem eval_bind {access : Access α} {c : Contents} {a : α} {puts : List (Bytes × Bytes)}
    (h : access.eval c = (.ok a, puts)) (f : α → Access β) :
    (access >>= f).eval c =
      (((f a).eval (c.write puts)).1, puts ++ ((f a).eval (c.write puts)).2) := by
  rw [eval, run_bind, Dialogue.eval_bind]
  rw [eval] at h
  rw [h]
  rfl

/-- An operation that succeeds without a put goes on with the same contents. -/
theorem eval_bind_read {access : Access α} {c : Contents} {a : α}
    (h : access.eval c = (.ok a, [])) (f : α → Access β) :
    (access >>= f).eval c = (f a).eval c := by
  rw [eval_bind h]
  rfl

/-- An operation that fails is not gone on with. -/
theorem eval_bind_error {access : Access α} {c : Contents} {failure : Failure}
    {puts : List (Bytes × Bytes)} (h : access.eval c = (.error failure, puts))
    (f : α → Access β) : (access >>= f).eval c = (.error failure, puts) := by
  rw [eval, run_bind, Dialogue.eval_bind]
  rw [eval] at h
  rw [h]
  simp [ExceptT.bindCont, Dialogue.eval]

/-- An operation on a reliable store is an operation on its contents. -/
theorem on_eq_eval {σ : Type} [ByteStore σ] [ReliableStore σ] (access : Access α) {s : σ}
    (h : Sound s) :
    ∃ s', access.on s = ((access.eval (contents s)).1, s') ∧ Sound s' ∧
      contents s' = (contents s).write (access.eval (contents s)).2 ∧
      Dialogue.puts access.run s = (access.eval (contents s)).2 :=
  Dialogue.run_eq_eval access.run h

theorem on_fst {σ : Type} [ByteStore σ] [ReliableStore σ] (access : Access α) {s : σ}
    (h : Sound s) : (access.on s).1 = (access.eval (contents s)).1 := by
  obtain ⟨s', hon, -⟩ := access.on_eq_eval h
  rw [hon]

end Access

end Leaderboard
