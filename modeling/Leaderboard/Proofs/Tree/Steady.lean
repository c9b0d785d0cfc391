import Leaderboard.Proofs.Store.Interrupted
import Leaderboard.Proofs.Tree.Composed

/-!
# Sessions on any contents

What a session does on contents that hold a tree is told by `SessionM.Gives`.  On
other contents it may fail anywhere, but some things hold whatever it reads: it
puts nothing before the flush, it keeps the marked keys in increasing order, and it
fails in certain ways only.  `SessionM.Steady` says so of an action.

Only the ways down the tree follow pointers without end.  So the other actions never
fail as `Tree.endless` (`Tree.bounded_closed`).
-/

namespace Leaderboard

/-- The failure of a loop that has followed too many pointers. -/
def Failure.Endless (failure : Failure) : Prop :=
  ∃ name steps, failure = .integrity (.endless name steps)

theorem Failure.Unreadable.not_endless {failure : Failure} (h : failure.Unreadable) :
    ¬ failure.Endless := by
  rintro ⟨name, steps, rfl⟩
  cases h

/-! ## Marked keys in order -/

theorem RankKey.pairwise_insertInto {key : RankKey} {ks : List RankKey}
    (h : ks.Pairwise (· < ·)) : (key.insertInto ks).Pairwise (· < ·) := by
  induction ks with
  | nil => exact List.pairwise_singleton _ _
  | cons k ks ih =>
      obtain ⟨hk, hks⟩ := List.pairwise_cons.mp h
      rw [insertInto]
      cases hc : compare key k with
      | lt =>
          have hlt : key < k := RankKey.compare_lt.mp hc
          refine List.pairwise_cons.mpr ⟨fun j hj => ?_, h⟩
          rcases List.mem_cons.mp hj with rfl | hj
          · exact hlt
          · exact RankKey.lt_trans hlt (hk j hj)
      | eq => exact h
      | gt =>
          refine List.pairwise_cons.mpr ⟨fun j hj => ?_, ih hks⟩
          rcases RankKey.mem_insertInto.mp hj with rfl | hj
          · exact RankKey.compare_gt.mp hc
          · exact hk j hj

namespace SessionM

variable {α β : Type}

/-- An action ends with its marked keys in increasing order, or with certain failures. -/
def Ends (E : Failure → Prop) : Except Failure (α × Session) → Prop
  | .ok (_, s) => s.dirty.Pairwise (· < ·)
  | .error failure => E failure

/-- Whatever an action reads, it puts nothing, keeps the marked keys in increasing order, and
fails in certain ways only. -/
def Steady (E : Failure → Prop) (m : SessionM α) : Prop :=
  ∀ s : Session, s.dirty.Pairwise (· < ·) → Access.Reads (Ends E) (m.run s)

variable {E E' : Failure → Prop} {m : SessionM α} {f : α → SessionM β}

theorem steady_pure (a : α) : Steady E (pure a) := fun _ hs => hs

theorem Steady.bind (h : Steady E m) (hf : ∀ a, Steady E (f a)) : Steady E (m >>= f) :=
  fun s hs => (h s hs).bind (fun p hp => hf p.1 p.2 hp) fun _ => id

theorem Steady.mono (h : Steady E m) (hE : ∀ failure, E failure → E' failure) : Steady E' m := by
  refine fun s hs => (h s hs).mono fun outcome ho => ?_
  cases outcome with
  | ok a => exact ho
  | error failure => exact hE failure ho

theorem steady_get : Steady E get := fun _ hs => hs

theorem steady_modify {g : Session → Session}
    (hg : ∀ s : Session, s.dirty.Pairwise (· < ·) → (g s).dirty.Pairwise (· < ·)) :
    Steady E (modify g : SessionM Unit) := fun s hs => hg s hs

theorem steady_throw {failure : Failure} (h : E failure) : Steady E (throw failure : SessionM α) :=
  fun _ _ => h

theorem steady_lift {access : Access α}
    (h : access.Reads fun outcome => ∀ failure, outcome = .error failure → E failure) :
    Steady E (liftM access) :=
  fun _ hs => Access.Reads.bind h (fun _ _ => hs) fun failure hfailure => hfailure failure rfl

/-- What a steady action leaves. -/
theorem Steady.sorted (h : Steady E m) {c : Contents} {s s' : Session} {a : α}
    (hs : s.dirty.Pairwise (· < ·)) (hg : Gives c m s a s') : s'.dirty.Pairwise (· < ·) := by
  obtain ⟨outcome, heval, hends⟩ := (h s hs).eval c
  rw [hg] at heval
  cases heval
  exact hends

end SessionM

open SessionM (Steady steady_pure steady_get steady_modify steady_throw steady_lift)

namespace Tree

variable {t : Tree}

/-! ## The actions of a session -/

/-- An action is steady, and does not fail as an endless loop does. -/
abbrev Bounded {α : Type} (m : SessionM α) : Prop := Steady (fun failure => ¬ failure.Endless) m

theorem not_endless_integrity {fault : TreeFault} (h : ∀ name steps, fault ≠ .endless name steps) :
    ¬ (Failure.integrity fault).Endless := by
  rintro ⟨name, steps, heq⟩
  cases heq
  exact h name steps rfl

/-- An operation that only reads, and does not fail as an endless loop does. -/
abbrev Terse {α : Type} (access : Access α) : Prop :=
  access.Reads fun outcome => ∀ failure, outcome = .error failure → ¬ failure.Endless

theorem terse_pure {α : Type} (a : α) : Terse (pure a : Access α) :=
  Access.reads_pure fun _ h => by cases h

theorem terse_throw {α : Type} {failure : Failure} (h : failure.Unreadable) :
    Terse (throw failure : Access α) := by
  refine Access.reads_throw fun failure' h' => ?_
  cases h'
  exact h.not_endless

theorem terse_bind {α β : Type} {access : Access α} {f : α → Access β} (h : Terse access)
    (hf : ∀ a, Terse (f a)) : Terse (access >>= f) := by
  refine h.bind (fun a _ => hf a) fun failure h' failure' heq => ?_
  cases heq
  exact h' _ rfl

theorem terse_get (key : Bytes) : Terse (Access.get key) :=
  Access.reads_get (fun _ _ h => by cases h) key

theorem terse_decoded {α : Type} (key : Bytes) (decoded : Except FormatFault α) :
    Terse (Tree.decoded key decoded) := by
  cases decoded with
  | ok a => exact terse_pure a
  | error cause => exact terse_throw (.malformed _ _)

theorem terse_load (t : Tree) (key : RankKey) : Terse (t.load key) := by
  refine terse_bind (terse_get _) fun value => ?_
  split
  · exact terse_throw (.dangling _)
  · exact terse_throw (.dangling _)
  · exact terse_decoded _ _

theorem terse_root (t : Tree) : Terse t.root := by
  refine terse_bind (terse_get _) fun value => ?_
  split
  · exact terse_pure _
  · exact terse_pure _
  · exact terse_bind (terse_decoded _ _) fun _ => terse_pure _

theorem bounded_fetch (t : Tree) (key : RankKey) : Bounded (t.fetch key) := by
  refine steady_get.bind fun s => ?_
  split
  · exact steady_pure _
  · refine (steady_lift (terse_load t key)).bind fun node => ?_
    exact Steady.bind (steady_modify fun _ hs => hs) fun _ => steady_pure _

theorem bounded_store (key : RankKey) (node : Node) : Bounded (store key node) :=
  steady_modify fun _ hs => RankKey.pairwise_insertInto hs

theorem bounded_discard (key : RankKey) : Bounded (discard key) :=
  steady_modify fun _ hs => hs.filter _

/-- Every action of a session but the ways down is steady and bounded. -/
theorem bounded_closed (t : Tree) : t.SessionClosed fun _ m => Bounded m where
  pure := steady_pure
  bind h hf := Steady.bind h hf
  fetch := bounded_fetch t
  store := bounded_store
  discard := bounded_discard
  fault h := steady_throw (not_endless_integrity h)

/-! ## The ways down -/

/-- An action is steady, and may fail in any way. -/
abbrev Orderly {α : Type} (m : SessionM α) : Prop := Steady (fun _ => True) m

theorem Bounded.orderly {α : Type} {m : SessionM α} (h : Bounded m) : Orderly m :=
  h.mono fun _ _ => trivial

/-- Every action of a session is steady. -/
theorem orderly_closed (t : Tree) : t.DescentClosed fun _ m => Orderly m where
  pure := steady_pure
  bind h hf := Steady.bind h hf
  fetch key := (bounded_fetch t key).orderly
  store key node := (bounded_store key node).orderly
  discard key := (bounded_discard key).orderly
  fault _ := steady_throw trivial
  endless := steady_throw trivial

/-! ## Whole operations -/

/-- A flush gives up at the first failure. -/
theorem givesUp_closed (t : Tree) : t.WriteClosed fun _ access => access.GivesUp where
  pure := Access.givesUp_pure
  bind h hf := Access.GivesUp.bind h hf
  putNode _ := Access.givesUp_put _
  putRoot := Access.givesUp_put _

/-- A session that is written back gives up at the first failure. -/
theorem givesUp_conclude {m : NodeRef → SessionM (Option NodeRef)} (hm : ∀ root, Orderly (m root))
    (t : Tree) : (do
      let root ← t.root
      t.conclude root (← (m root).run {})).GivesUp :=
  t.givesUp_closed.conclude (terse_root t).givesUp fun root =>
    (hm root {} List.Pairwise.nil).givesUp

theorem givesUp_insert (t : Tree) (key : RankKey) (payload : String) :
    (t.insert key payload).GivesUp := by
  rw [insert_eq]
  exact givesUp_conclude (t.orderly_closed.inserting key payload) t

theorem givesUp_delete (t : Tree) (key : RankKey) : (t.delete key).GivesUp := by
  rw [delete_eq]
  exact givesUp_conclude (t.orderly_closed.deleting key) t

end Tree

end Leaderboard
