import Leaderboard.Proofs.Store.Committing
import Leaderboard.Proofs.Store.Recording
import Leaderboard.Proofs.Tree.Map

/-!
# Changes that are refused

A change may fail at any read: on the way down, at the next node of a deleted one, at the
nodes beside the way back up and in the rotations.  By then it has changed nodes in memory,
but put nothing.  Every read comes before the flush, which only puts, and a change whose
puts succeed reports that it was made (`Change.commits_serve`).  So a change that fails, or
that has nothing to do, leaves the store as it was, whatever the records are and whichever
reads fail (`refused_change_puts_nothing`).
-/

namespace Leaderboard

open FaithfulStore (Sound contents)

namespace Tree

/-- A flush only puts. -/
theorem succeeds_closed (t : Tree) : t.WriteClosed fun _ access => access.Succeeds where
  pure := Access.succeeds_pure
  bind h hf := h.bind hf
  putNode _ := Access.succeeds_put _
  putRoot := Access.succeeds_put _

/-- A session that is written back reports that it was, and puts nothing before. -/
theorem commits_conclude {m : NodeRef → SessionM (Option NodeRef)} (hm : ∀ root, Orderly (m root))
    (t : Tree) : Access.Commits (fun outcome => outcome = .ok true) (do
      let root ← t.root
      t.conclude root (← (m root).run {})) := by
  refine (terse_root t).commits fun root => ?_
  refine (hm root {} List.Pairwise.nil).commits fun outcome => ?_
  obtain ⟨newRoot, s⟩ := outcome
  cases newRoot with
  | none => exact Access.commits_pure false
  | some newRoot => exact (t.succeeds_closed.flush s root newRoot).commits rfl

end Tree

/-- A change puts nothing before its flush, and whatever happens after that it reports that it was
made. -/
theorem Change.commits_serve (change : Change) (t : Tree) :
    (change.serve t).Commits (· = .ok true) := by
  cases change with
  | insert key payload =>
      rw [serve, Tree.insert_eq]
      exact Tree.commits_conclude (t.orderly_closed.inserting key payload) t
  | delete key =>
      rw [serve, Tree.delete_eq]
      exact Tree.commits_conclude (t.orderly_closed.deleting key) t

/-- A change that fails, or that reports that there was nothing to do, has put nothing and has
left the store as it was.  This holds for all contents, and whichever reads fail. -/
theorem refused_change_puts_nothing {σ : Type} [ByteStore σ] [WritableStore σ] (t : Tree)
    (change : Change) {store : σ} (hstore : Sound store)
    (hrefused : ((change.serve t).on store).1 ≠ .ok true) :
    Dialogue.puts (change.serve t).run store = [] ∧
      contents ((change.serve t).on store).2 = contents store :=
  ((change.commits_serve t).run hstore).resolve_left hrefused

/-- A store with a tree of five nodes.  The fifth read fails. -/
def Refusing.store : Faulty MemoryStore where
  inner := (Access.onEach ([4, 2, 5, 3, 6].map fun count =>
    (Change.insert (.ofCount count) "").serve .sample) ({} : MemoryStore)).2
  faults := [none, none, none, none, some (.store "unreadable")]

/-- The node on top is deleted, and the next one has its children already, when the node behind it
cannot be read. -/
theorem refused_change_puts_nothing_faulty :
    (((Change.delete (.ofCount 4)).serve .sample).on Refusing.store).1 =
        .error (.store "unreadable") ∧
      Dialogue.puts ((Change.delete (.ofCount 4)).serve .sample).run Refusing.store = [] ∧
      contents (((Change.delete (.ofCount 4)).serve .sample).on Refusing.store).2 =
        contents Refusing.store := by
  have hsound : Sound Refusing.store := trivial
  have hfails : (((Change.delete (.ofCount 4)).serve .sample).on Refusing.store).1 =
      .error (.store "unreadable") := by
    decide +kernel
  refine ⟨hfails, refused_change_puts_nothing .sample (.delete (.ofCount 4)) hsound ?_⟩
  rw [hfails]
  nofun

end Leaderboard
