import Leaderboard.Proofs.Store.Faulty
import Leaderboard.Proofs.Tree.Circling
import Leaderboard.Proofs.Tree.Survival

/-!
# Walks past failed reads

A call of `Walk.next` that meets a failed read fails with it.  By then it may have read the
pointer to the root and some of the nodes on the way down, and the walk has kept them.  So
the walk may stand elsewhere than before the call, but it goes on as if the call had not
been made: from either place the next call comes to the same (`Walk.next_resumes`).

`Interspersed` says of a list of replies that it is another one with some failures in
between.  The replies of a walk are those of one that meets no failure, with the failures
of the reads interspersed, each of which takes one call (`Walk.calls_interspersed`).  So if
some reads fail and no others, a walk that is called on past them gives every entry, and
each only once (`walk_resumes`).
-/

namespace Leaderboard

open Dialogue (Meets)

/-! ## Lists with failures in between -/

/-- A list of replies is another one with some failures in between. -/
inductive Interspersed {α : Type} :
    List Failure → List (Except Failure α) → List (Except Failure α) → Prop where
  /-- There are no more replies. -/
  | nil : Interspersed [] [] []
  /-- A failure is in between. -/
  | failed {fs : List Failure} {rs all : List (Except Failure α)} (failure : Failure)
      (h : Interspersed fs rs all) : Interspersed (failure :: fs) rs (.error failure :: all)
  /-- A reply is from the list. -/
  | told {fs : List Failure} {rs all : List (Except Failure α)} (reply : Except Failure α)
      (h : Interspersed fs rs all) : Interspersed fs (reply :: rs) (reply :: all)

/-- The answers among replies. -/
def answers {α : Type} (replies : List (Except Failure α)) : List α :=
  replies.filterMap Except.toOption

/-- Failures in between add no answers and take none away. -/
theorem Interspersed.answers_eq {α : Type} {fs : List Failure} {rs all : List (Except Failure α)}
    (h : Interspersed fs rs all) : answers all = answers rs := by
  induction h with
  | nil => rfl
  | failed failure _ ih => exact ih
  | told reply _ ih =>
      cases reply with
      | ok a => exact congrArg (a :: ·) ih
      | error failure => exact ih

/-! ## Actions that meet a failure -/

namespace WalkM

variable {α β : Type} {c : Contents} {R : Walk → Prop} {w : Walk}

/-- If some read of an action fails, the action fails at it, and leaves a certain walk. -/
def FailsInto (c : Contents) (R : Walk → Prop) (m : WalkM α) (w : Walk) : Prop :=
  ∀ failure fs reply w', Meets c (m.run.run w) (failure :: fs) (reply, w') →
    fs = [] ∧ reply = .error failure ∧ R w'

theorem failsInto_pure (a : α) : FailsInto c R (pure a) w := fun _ _ _ _ h => by cases h

theorem failsInto_throw (failure : Failure) : FailsInto c R (throw failure : WalkM α) w :=
  fun _ _ _ _ h => by cases h

theorem failsInto_get : FailsInto c R get w := fun _ _ _ _ h => by cases h

theorem failsInto_set (w' : Walk) : FailsInto c R (set w') w := fun _ _ _ _ h => by cases h

theorem failsInto_modify (f : Walk → Walk) : FailsInto c R (modify f) w :=
  fun _ _ _ _ h => by cases h

theorem failsInto_ask {access : Access α} (h : access.GivesUp) (hw : R w) :
    FailsInto c R (Walk.ask access) w := by
  intro failure fs reply w' hmeets
  rw [Walk.run_ask] at hmeets
  obtain ⟨fs₁, fs₂, outcome, hfs, h₁, h₂⟩ := hmeets.of_bind
  obtain ⟨rfl, hreply⟩ := h₂.of_answer
  cases hreply
  rw [List.append_nil] at hfs
  rw [← hfs] at h₁
  obtain ⟨rfl, rfl⟩ := h.of_meets h₁
  exact ⟨rfl, rfl, hw⟩

theorem FailsInto.bind {m : WalkM α} {f : α → WalkM β} (h : FailsInto c R m w)
    (hf : ∀ a w', Gives c m w a w' → FailsInto c R (f a) w') : FailsInto c R (m >>= f) w := by
  intro failure fs reply w' hmeets
  rw [run_bind] at hmeets
  obtain ⟨fs₁, fs₂, ⟨outcome, w₁⟩, hfs, h₁, h₂⟩ := hmeets.of_bind
  cases fs₁ with
  | nil =>
      rw [List.nil_append] at hfs
      rw [← hfs] at h₂
      cases outcome with
      | ok a => exact hf a w₁ h₁.eval_eq _ _ _ _ h₂
      | error failure' => cases h₂
  | cons failure' fs₁ =>
      rw [List.cons_append, List.cons.injEq] at hfs
      obtain ⟨rfl, rfl⟩ := hfs
      obtain ⟨rfl, rfl, hw₁⟩ := h _ _ _ _ h₁
      obtain ⟨rfl, hreply⟩ := h₂.of_answer
      cases hreply
      exact ⟨rfl, rfl, hw₁⟩

theorem FailsInto.mono {R' : Walk → Prop} {m : WalkM α} (h : FailsInto c R m w)
    (hR : ∀ w', R w' → R' w') : FailsInto c R' m w := by
  intro failure fs reply w' hmeets
  obtain ⟨hfs, hreply, hw'⟩ := h _ _ _ _ hmeets
  exact ⟨hfs, hreply, hR w' hw'⟩

/-- The action only reads. -/
def ReadOnly (m : WalkM α) : Prop := ∀ w, (m.run.run w).ReadOnly

theorem readOnly_ask {Q : Except Failure α → Prop} {access : Access α} (h : access.Reads Q) :
    ReadOnly (Walk.ask access) :=
  fun _ => (Dialogue.Reads.readOnly h).bind fun _ => trivial

theorem ReadOnly.bind {m : WalkM α} {f : α → WalkM β} (h : ReadOnly m)
    (hf : ∀ a, ReadOnly (f a)) : ReadOnly (m >>= f) := by
  refine fun w => (h w).bind ?_
  rintro ⟨outcome, w'⟩
  cases outcome with
  | ok a => exact hf a w'
  | error failure => trivial

end WalkM

open WalkM (Gives gives_get gives_ask ReadOnly FailsInto failsInto_pure failsInto_throw
  failsInto_get failsInto_set failsInto_modify failsInto_ask)

/-- Walks only read. -/
theorem Tree.readOnly_closed (t : Tree) : t.WalkClosed fun _ m => ReadOnly m where
  pure _ := fun _ => trivial
  bind h hf := h.bind hf
  get := fun _ => trivial
  set _ := fun _ => trivial
  modify _ := fun _ => trivial
  root := WalkM.readOnly_ask (terse_root t)
  load key := WalkM.readOnly_ask (terse_load t key)
  fault _ := fun _ => trivial

namespace Walk

variable {t : Tree} {c : Contents} {w w' : Walk}

/-! ## One call -/

/-- From two places the next call comes to the same. -/
def Alike (t : Tree) (c : Contents) (w w' : Walk) : Prop :=
  Dialogue.eval ((next t).run.run w') c = Dialogue.eval ((next t).run.run w) c

/-- A walk stays where it was when the read of a node fails, -/
theorem failsInto_load (t : Tree) (key : RankKey) :
    FailsInto c (Alike t c w) (ask (t.load key)) w :=
  failsInto_ask (Tree.terse_load t key).givesUp rfl

/-- and also when that of the pointer to the root fails. -/
theorem failsInto_root (t : Tree) : FailsInto c (Alike t c w) (ask t.root) w :=
  failsInto_ask (Tree.terse_root t).givesUp rfl

/-- A walk that fails on its way down has the nodes that it has passed on its stack. -/
theorem descend_failsInto {n : Nat} (hstarted : w.started = true)
    (hroom : n = maxDepth - w.stack.length) : FailsInto c (Alike t c w) (descend t n) w := by
  induction n generalizing w with
  | zero =>
      rw [descend]
      refine failsInto_get.bind fun w₁ w₂ hget => ?_
      cases hget
      split
      · exact failsInto_pure _
      · exact failsInto_throw _
  | succ n ih =>
      rw [descend]
      refine failsInto_get.bind fun w₁ w₂ hget => ?_
      cases hget
      split
      next => exact failsInto_pure _
      next key hcursor =>
        refine (failsInto_load t key).bind fun node w₃ hload => ?_
        obtain ⟨rfl, hn⟩ := load_of_gives hload
        refine (failsInto_modify _).bind fun _ w₄ hmodify => ?_
        cases hmodify
        have hat : At w₃.order (n + 1) (some key) w₃ := ⟨rfl, hstarted, hcursor, by omega⟩
        have hpushed : n = maxDepth - (w₃.push key node).stack.length := by
          simp only [push, List.length_cons]
          omega
        exact (ih (w := w₃.push key node) hstarted hpushed).mono fun w' hw' =>
          Eq.trans hw' (next_push hat hn).symm

/-- To start a walk does not change what the next call comes to. -/
theorem start_cases (h : Gives c (start t) w () w') : w'.started = true ∧ Alike t c w w' := by
  have hstarted : w'.started = true := by
    cases hs : w.started with
    | true =>
        have hsame := (start_gives hs).symm.trans h
        cases hsame
        exact hs
    | false =>
        rw [Gives, start, gives_get.eval_bind, hs] at h
        rcases Tree.root_cases t c with ⟨ref, -, -, hroot⟩ | ⟨failure, -, hroot⟩
        · have hread := ((gives_ask hroot).eval_bind _).symm.trans h
          cases hread
          rfl
        · have hread := (WalkM.eval_bind_error (WalkM.eval_ask hroot) _).symm.trans h
          cases hread
  refine ⟨hstarted, ?_⟩
  rw [Alike, next, (start_gives hstarted).eval_bind, h.eval_bind]

/-- A call that fails for a failed read may be made again. -/
theorem next_resumes (w : Walk) : FailsInto c (Alike t c w) (next t) w := by
  have hstart : FailsInto c (Alike t c w) (start t) w := by
    refine failsInto_get.bind fun w₁ w₂ hget => ?_
    cases hget
    split
    · exact (failsInto_root t).bind fun _ _ _ => failsInto_modify _
    · exact failsInto_pure _
  refine hstart.bind fun _ w₁ h₁ => ?_
  obtain ⟨hstarted, halike⟩ := start_cases h₁
  refine failsInto_get.bind fun _ w₂ hget => ?_
  cases hget
  refine FailsInto.bind ?_ fun _ w₃ _ => ?_
  · exact (descend_failsInto hstarted rfl).mono fun w' hw' => Eq.trans hw' halike
  · refine failsInto_get.bind fun w₄ _ _ => ?_
    split
    · exact failsInto_pure _
    · exact (failsInto_set _).bind fun _ _ _ => failsInto_pure _

/-! ## Many calls -/

/-- The replies to some calls on contents that can be read throughout. -/
def called (t : Tree) (c : Contents) (n : Nat) (w : Walk) :
    List (Except Failure (Option Placement)) :=
  (Dialogue.eval ((calls t n).run w) c).1.1

theorem readOnly_calls (t : Tree) (n : Nat) (w : Walk) : ((calls t n).run w).ReadOnly := by
  induction n generalizing w with
  | zero => trivial
  | succ n ih =>
      rw [run_calls_succ]
      exact (t.readOnly_closed.next w).bind fun p => (ih p.2).bind fun _ => trivial

theorem called_succ {reply : Except Failure (Option Placement)}
    (h : Dialogue.eval ((next t).run.run w) c = ((reply, w'), [])) (n : Nat) :
    called t c (n + 1) w = reply :: called t c n w' := by
  rw [called, run_calls_succ, Dialogue.eval_bind, h, Dialogue.eval_bind]
  rfl

theorem Alike.called_eq (h : Alike t c w w') (n : Nat) : called t c n w' = called t c n w := by
  cases n with
  | zero => rfl
  | succ n =>
      rw [Alike] at h
      simp only [called, run_calls_succ, Dialogue.eval_bind, h]

section

variable {σ : Type} [ByteStore σ] {store store' : σ} {reply : Except Failure (Option Placement)}

/-- The failures of the reads during some calls. -/
def failed (t : Tree) (n : Nat) (w : Walk) (store : σ) : List Failure :=
  ((calls t n).run w).failures store

theorem failed_succ (h : ((next t).run.run w).run store = ((reply, w'), store')) (n : Nat) :
    failed t (n + 1) w store = ((next t).run.run w).failures store ++ failed t n w' store' := by
  rw [failed, run_calls_succ, Dialogue.failures_bind, h, Dialogue.failures_bind]
  exact congrArg _ (List.append_nil _)

theorem calls_succ (h : ((next t).run.run w).run store = ((reply, w'), store')) (n : Nat) :
    (((calls t (n + 1)).run w).run store).1.1 = reply :: (((calls t n).run w').run store').1.1 := by
  rw [run_calls_succ, Dialogue.run_bind, h, Dialogue.run_bind]
  rfl

/-- Another call may meet more failures, but not fewer. -/
theorem length_failed_le (t : Tree) (n : Nat) (w : Walk) (store : σ) :
    (failed t n w store).length ≤ (failed t (n + 1) w store).length := by
  induction n generalizing w store with
  | zero => exact Nat.zero_le _
  | succ n ih =>
      obtain ⟨⟨⟨reply, w'⟩, store'⟩, hnext⟩ : ∃ p, ((next t).run.run w).run store = p := ⟨_, rfl⟩
      rw [failed_succ hnext, failed_succ hnext, List.length_append, List.length_append]
      exact Nat.add_le_add_left (ih w' store') _

variable [FaithfulStore σ]

/-- A walk that meets some failures gives the replies of one that does not, with the failures in
between. -/
theorem calls_interspersed (hstore : FaithfulStore.Sound store) (n : Nat) (w : Walk) :
    ∃ m, n = m + (failed t n w store).length ∧
      Interspersed (failed t n w store) (called t (FaithfulStore.contents store) m w)
        (((calls t n).run w).run store).1.1 := by
  induction n generalizing w store with
  | zero => exact ⟨0, rfl, .nil⟩
  | succ n ih =>
      have hreads := t.readOnly_closed.next w
      have hmeets := Dialogue.meets_run hreads hstore
      obtain ⟨hstore', hcontents⟩ := hreads.run_holds hstore
      obtain ⟨⟨⟨reply, w'⟩, store'⟩, hnext⟩ : ∃ p, ((next t).run.run w).run store = p := ⟨_, rfl⟩
      rw [hnext] at hmeets hstore' hcontents
      dsimp only at hmeets hstore' hcontents
      obtain ⟨m, hm, hrest⟩ := ih hstore' w'
      rw [hcontents] at hrest
      rw [failed_succ hnext, calls_succ hnext]
      cases hfs : ((next t).run.run w).failures store with
      | nil =>
          rw [hfs] at hmeets
          refine ⟨m + 1, by rw [List.nil_append]; omega, ?_⟩
          rw [called_succ hmeets.eval_eq]
          exact hrest.told reply
      | cons failure fs =>
          rw [hfs] at hmeets
          obtain ⟨rfl, rfl, halike⟩ := next_resumes w _ _ _ _ hmeets
          refine ⟨m, by rw [List.singleton_append, List.length_cons]; omega, ?_⟩
          rw [Alike.called_eq halike] at hrest
          exact hrest.failed failure

end

section

variable {σ : Type} [ByteStore σ] [ReliableStore σ] {store : Faulty σ}

/-- A walk meets the failures of a pattern in their order. -/
theorem failed_in_order (hstore : ReliableStore.Sound store.inner) (n : Nat) (w : Walk) :
    failed t n w store <+: store.faults.reduceOption :=
  ⟨_, Faulty.failures_append (readOnly_calls t n w) hstore⟩

/-- After so many calls as there are failures, and some more, a walk has given so many more replies
that are not for a failed read. -/
theorem exists_calls (hstore : ReliableStore.Sound store.inner) (w : Walk) (m : Nat) :
    ∃ n ≤ m + store.faults.reduceOption.length, n = m + (failed t n w store).length := by
  have henough : m + (failed t (m + store.faults.reduceOption.length) w store).length ≤
      m + store.faults.reduceOption.length :=
    Nat.add_le_add_left (failed_in_order hstore _ w).length_le m
  -- the first number of calls that is large enough is not too large
  have hexists : ∃ n, m + (failed t n w store).length ≤ n := ⟨_, henough⟩
  refine ⟨Nat.find hexists, Nat.find_min' hexists henough, ?_⟩
  have hspec := Nat.find_spec hexists
  cases hn : Nat.find hexists with
  | zero =>
      rw [hn] at hspec
      omega
  | succ k =>
      rw [hn] at hspec
      have hbefore : ¬ m + (failed t k w store).length ≤ k := Nat.find_min hexists (by omega)
      have hle := length_failed_le t k w store
      omega

end

end Walk

/-- A walk that meets failed reads gives what it would give otherwise, with the failures in
between.  Each failed read takes one call, and no entry is skipped or given again.  Once the
pattern of failures is used up, every reply has come. -/
theorem walk_resumes {σ : Type} [ByteStore σ] [ReliableStore σ] (t : Tree) (order : Order)
    {store : Faulty σ} (hstore : ReliableStore.Sound store.inner) :
    let replies n := (((Walk.calls t n).run { order }).run store).1.1
    let unbroken n := (((Walk.calls t n).run { order }).run store.inner).1.1
    let failed n := Walk.failed t n { order } store
    (∀ n, failed n <+: store.faults.reduceOption ∧
      ∃ m, n = m + (failed n).length ∧ Interspersed (failed n) (unbroken m) (replies n) ∧
        answers (replies n) = answers (unbroken m)) ∧
    ∀ m, ∃ n ≤ m + store.faults.reduceOption.length, n = m + (failed n).length := by
  intro replies unbroken failed
  have hfaithful : FaithfulStore.Sound store := hstore
  refine ⟨fun n => ⟨Walk.failed_in_order hstore n _, ?_⟩, Walk.exists_calls hstore _⟩
  obtain ⟨m, hm, h⟩ := Walk.calls_interspersed (t := t) hfaithful n { order }
  obtain ⟨inner, hrun, -⟩ := ((Walk.calls t m).run { order }).run_eq_eval hstore
  have hunbroken : unbroken m = Walk.called t (ReliableStore.contents store.inner) m { order } :=
    congrArg (fun p => p.1.1) hrun
  have hreplies : Interspersed (failed n) (unbroken m) (replies n) := by
    rw [hunbroken]
    exact h
  exact ⟨m, hm, hreplies, hreplies.answers_eq⟩

namespace Resuming

/-- The failure of a read. -/
def lost : Failure := .store "lost"

/-- A store with a tree of two nodes.  The first read fails, and so does that of the node on the
left when the one on top is on the stack already. -/
def store : Faulty MemoryStore where
  inner := (Access.onEach ([Change.insert (.ofCount 2) "b", .insert (.ofCount 1) "a"].map
    (Change.serve .sample)) ({} : MemoryStore)).2
  faults := [some lost, none, none, some lost]

end Resuming

open Resuming in
/-- Of five calls two are for the failed reads. -/
theorem walk_resumes_faulty :
    let replies n := (((Walk.calls .sample n).run { order := .ascending }).run store).1.1
    let unbroken n := (((Walk.calls .sample n).run { order := .ascending }).run store.inner).1.1
    replies 5 = [.error lost, .error lost, .ok (some (.ofCount 1, "a")),
        .ok (some (.ofCount 2, "b")), .ok none] ∧
      answers (replies 5) = answers (unbroken 3) := by
  intro replies unbroken
  have hreplies : replies 5 = [.error lost, .error lost, .ok (some (.ofCount 1, "a")),
      .ok (some (.ofCount 2, "b")), .ok none] := by
    decide +kernel
  have hfailed : Walk.failed .sample 5 { order := .ascending } store = [lost, lost] := by
    decide +kernel
  have hsound : ReliableStore.Sound store.inner := trivial
  obtain ⟨-, m, hm, -, hanswers⟩ := (walk_resumes .sample .ascending hsound).1 5
  simp only [hfailed, List.length_cons, List.length_nil] at hm
  obtain rfl : m = 3 := by omega
  exact ⟨hreplies, hanswers⟩

end Leaderboard
