import Leaderboard.Proofs.Store.Within

/-!
# What a store replies to reads

`Dialogue.replies` lists the reads of a dialogue with a store, each with the reply of the
store, whatever store it is and whatever else happens to it.  A reliable store is asked for
the records of `Dialogue.trace`, which depends on its contents only (`Dialogue.gets_eq`).

`Dialogue.EndsOn` says of a dialogue that it has nothing more to ask once a read of some
key was replied to in some way, and with which answers it ends then.  Two dialogues in
sequence do so if both do and the second goes along with these answers.  So if the reply
was given at all, the dialogue has ended with such an answer
(`Dialogue.EndsOn.of_mem_replies`).

Operations, actions of a session and actions of a walk do so if they end with one failure.
-/

namespace Leaderboard

/-! ## Dialogues -/

namespace Dialogue

variable {α β : Type} {key : Bytes} {reply : Except Failure (Option Bytes)} {Q : α → Prop}
  {R : β → Prop}

/-- The reads of a dialogue with a store, with the replies. -/
def replies {σ : Type} [ByteStore σ] :
    Dialogue α → σ → List (Bytes × Except Failure (Option Bytes))
  | answer _, _ => []
  | get key next, s =>
      (key, (ByteStore.get key s).1) ::
        (next (ByteStore.get key s).1).replies (ByteStore.get (σ := σ) key s).2
  | put key value next, s =>
      (next (ByteStore.put key value s).1).replies (ByteStore.put (σ := σ) key value s).2

theorem replies_bind {σ : Type} [ByteStore σ] (d : Dialogue α) (f : α → Dialogue β) (s : σ) :
    (d >>= f).replies s = d.replies s ++ (f (d.run s).1).replies (d.run s).2 := by
  induction d generalizing s with
  | answer a => rfl
  | get key next ih => exact congrArg _ (ih _ _)
  | put key value next ih => exact ih _ _

/-- The keys of the reads of a dialogue with a store. -/
def gets {σ : Type} [ByteStore σ] (d : Dialogue α) (s : σ) : List Bytes :=
  (d.replies s).map Prod.fst

/-- The keys of the reads of a dialogue with a store that holds `c` and does not fail. -/
def trace : Dialogue α → Contents → List Bytes
  | answer _, _ => []
  | get key next, c => key :: (next (.ok (c key))).trace c
  | put key value next, c => (next (.ok ())).trace (c.put key value)

theorem trace_bind (d : Dialogue α) (f : α → Dialogue β) (c : Contents) :
    (d >>= f).trace c = d.trace c ++ (f (d.eval c).1).trace (c.write (d.eval c).2) := by
  induction d generalizing c with
  | answer a => rfl
  | get key next ih => exact congrArg (key :: ·) (ih _ c)
  | put key value next ih => exact ih _ _

/-- The reads of a dialogue with a reliable store are those of one with its contents. -/
theorem gets_eq {σ : Type} [ByteStore σ] [ReliableStore σ] (d : Dialogue α) {s : σ}
    (h : ReliableStore.Sound s) : d.gets s = d.trace (ReliableStore.contents s) := by
  induction d generalizing s with
  | answer a => rfl
  | get key next ih =>
      obtain ⟨s', hget, hs', hcontents⟩ := ReliableStore.get_eq key h
      rw [gets, replies, hget, trace, ← hcontents]
      exact congrArg (key :: ·) (ih _ hs')
  | put key value next ih =>
      obtain ⟨s', hput, hs', hcontents⟩ := ReliableStore.put_eq key value h
      rw [gets, replies, hput, trace, ← hcontents]
      exact ih _ hs'

/-- Once a read of the key is replied to so, the dialogue ends, with some answers only. -/
def EndsOn (key : Bytes) (reply : Except Failure (Option Bytes)) (Q : α → Prop) :
    Dialogue α → Prop
  | answer _ => True
  | get k next => (k = key → ∃ a, next reply = answer a ∧ Q a) ∧ ∀ r, (next r).EndsOn key reply Q
  | put _ _ next => ∀ r, (next r).EndsOn key reply Q

/-- If the reply is given to a read of the key, the dialogue has one of these answers. -/
theorem EndsOn.of_mem_replies {d : Dialogue α} (h : d.EndsOn key reply Q) {σ : Type} [ByteStore σ]
    {s : σ} (hmem : (key, reply) ∈ d.replies s) : Q (d.run s).1 := by
  induction d generalizing s with
  | answer a => cases hmem
  | get k next ih =>
      rw [replies] at hmem
      rcases List.mem_cons.mp hmem with hread | hmem
      · obtain ⟨rfl, hreply⟩ := Prod.mk.inj hread
        obtain ⟨a, hnext, ha⟩ := h.1 rfl
        rw [run_get, ← hreply, hnext]
        exact ha
      · exact ih _ (h.2 _) hmem
  | put k value next ih => exact ih _ (h _) hmem

/-- What goes along with the answers of the first dialogue may follow it. -/
theorem EndsOn.bind {d : Dialogue α} {f : α → Dialogue β} (h : d.EndsOn key reply Q)
    (hQ : ∀ a, Q a → ∃ b, f a = answer b ∧ R b) (hf : ∀ a, (f a).EndsOn key reply R) :
    (d >>= f).EndsOn key reply R := by
  induction d with
  | answer a => exact hf a
  | get k next ih =>
      refine ⟨fun hk => ?_, fun r => ih r (h.2 r)⟩
      obtain ⟨a, hnext, ha⟩ := h.1 hk
      obtain ⟨b, hb, hR⟩ := hQ a ha
      exact ⟨b, (congrArg (· >>= f) hnext).trans hb, hR⟩
  | put k value next ih => exact fun r => ih r (h r)

end Dialogue

variable {α β : Type} {key : Bytes} {reply : Except Failure (Option Bytes)} {failure : Failure}

/-! ## Operations -/

namespace Access

/-- Once a read of the key is replied to so, the operation ends with the failure. -/
def FailsOn (key : Bytes) (reply : Except Failure (Option Bytes)) (failure : Failure)
    (access : Access α) : Prop :=
  Dialogue.EndsOn key reply (· = .error failure) access.run

variable {access : Access α} {f : α → Access β}

theorem failsOn_pure (a : α) : FailsOn key reply failure (pure a) := trivial

theorem failsOn_throw (failure' : Failure) :
    FailsOn key reply failure (throw failure' : Access α) := trivial

theorem failsOn_put (k value : Bytes) : FailsOn key reply failure (put k value) :=
  fun _ => trivial

theorem failsOn_get {k : Bytes} (h : k ≠ key) : FailsOn key reply failure (get k) :=
  ⟨fun hk => absurd hk h, fun _ => trivial⟩

theorem FailsOn.bind (h : FailsOn key reply failure access)
    (hf : ∀ a, FailsOn key reply failure (f a)) : FailsOn key reply failure (access >>= f) := by
  refine Dialogue.EndsOn.bind h ?_ fun outcome => ?_
  · rintro _ rfl
    exact ⟨_, rfl, rfl⟩
  · cases outcome with
    | ok a => exact hf a
    | error failure' => trivial

theorem FailsOn.map (h : FailsOn key reply failure access) (g : α → β) :
    FailsOn key reply failure (g <$> access) := by
  rw [map_eq_pure_bind]
  exact h.bind fun a => failsOn_pure _

/-- If the reply is given to a read of the key, the operation fails. -/
theorem FailsOn.on_eq (h : FailsOn key reply failure access) {σ : Type} [ByteStore σ] {store : σ}
    (hmem : (key, reply) ∈ Dialogue.replies access.run store) :
    (access.on store).1 = .error failure :=
  Dialogue.EndsOn.of_mem_replies h hmem

end Access

/-! ## Sessions -/

namespace SessionM

/-- Once a read of the key is replied to so, the action ends with the failure. -/
def FailsOn (key : Bytes) (reply : Except Failure (Option Bytes)) (failure : Failure)
    (m : SessionM α) : Prop :=
  ∀ s : Session, (m.run s).FailsOn key reply failure

variable {m : SessionM α} {f : α → SessionM β}

theorem failsOn_pure (a : α) : FailsOn key reply failure (pure a) :=
  fun _ => Access.failsOn_pure _

theorem failsOn_throw (failure' : Failure) :
    FailsOn key reply failure (throw failure' : SessionM α) := fun _ => Access.failsOn_throw _

theorem failsOn_get : FailsOn key reply failure get := fun _ => Access.failsOn_pure _

theorem failsOn_modify (g : Session → Session) :
    FailsOn key reply failure (modify g : SessionM Unit) := fun _ => Access.failsOn_pure _

theorem FailsOn.bind (h : FailsOn key reply failure m)
    (hf : ∀ a, FailsOn key reply failure (f a)) : FailsOn key reply failure (m >>= f) :=
  fun s => (h s).bind fun p => hf p.1 p.2

theorem failsOn_lift {access : Access α} (h : access.FailsOn key reply failure) :
    FailsOn key reply failure (liftM access) :=
  fun _ => Access.FailsOn.bind h fun _ => Access.failsOn_pure _

end SessionM

/-! ## Walks -/

namespace WalkM

/-- Once a read of the key is replied to so, the action ends with the failure. -/
def FailsOn (key : Bytes) (reply : Except Failure (Option Bytes)) (failure : Failure)
    (m : WalkM α) : Prop :=
  ∀ w : Walk, Dialogue.EndsOn key reply (fun p => p.1 = .error failure) (m.run.run w)

variable {m : WalkM α} {f : α → WalkM β}

theorem failsOn_pure (a : α) : FailsOn key reply failure (pure a) := fun _ => trivial

theorem failsOn_throw (failure' : Failure) :
    FailsOn key reply failure (throw failure' : WalkM α) := fun _ => trivial

theorem failsOn_get : FailsOn key reply failure get := fun _ => trivial

theorem failsOn_set (w : Walk) : FailsOn key reply failure (set w : WalkM PUnit) :=
  fun _ => trivial

theorem failsOn_modify (g : Walk → Walk) : FailsOn key reply failure (modify g : WalkM Unit) :=
  fun _ => trivial

theorem FailsOn.bind (h : FailsOn key reply failure m)
    (hf : ∀ a, FailsOn key reply failure (f a)) : FailsOn key reply failure (m >>= f) := by
  refine fun w => Dialogue.EndsOn.bind (h w) ?_ fun p => ?_
  · rintro ⟨_, w'⟩ rfl
    exact ⟨_, rfl, rfl⟩
  · obtain ⟨outcome, w'⟩ := p
    cases outcome with
    | ok a => exact hf a w'
    | error failure' => trivial

theorem failsOn_ask {access : Access α} (h : access.FailsOn key reply failure) :
    FailsOn key reply failure (Walk.ask access) := by
  refine fun w => Dialogue.EndsOn.bind h ?_ fun _ => trivial
  rintro _ rfl
  exact ⟨_, rfl, rfl⟩

/-- A walk that is made from its start ends with the failure too. -/
theorem FailsOn.along (h : FailsOn key reply failure m) (order : Order) :
    Access.FailsOn key reply failure (Walk.along order m) := by
  rw [Access.FailsOn, Walk.run_along]
  refine Dialogue.EndsOn.bind (h _) ?_ fun _ => trivial
  rintro p hp
  exact ⟨_, rfl, hp⟩

end WalkM

end Leaderboard
