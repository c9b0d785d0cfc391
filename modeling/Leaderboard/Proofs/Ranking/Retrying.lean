import Leaderboard.Proofs.Ranking.Occupied
import Leaderboard.Proofs.Store.Interrupted
import Leaderboard.Proofs.Store.Recording
import Leaderboard.Proofs.Tree.Steady

/-!
# Updates that lose the record

An update that looks the old rank up writes the tree first and the record of its entity last.
If the put of the record fails, the tree is ahead: it has the entity at its new rank, or has it
no more, and the record spells the old one.

The same update, made again, looks that old rank up and finds nothing there.  An update that
removes its entity puts the record then, and all agrees.  An update that gives its entity a rank
finds the rank taken, by the entity itself, and fails; the record stays as it was, however often
this is done (`Ranking.retry_heals_removals_only`).
-/

namespace Leaderboard

open ReliableStore (Sound contents)

/-! ## Updates that break off -/

namespace Ranking

theorem givesUp_recorded (t : Tree) (e : String) : (recorded t e).GivesUp := by
  refine (Tree.terse_get _).givesUp.bind fun value => ?_
  split
  · exact Access.givesUp_pure _
  · exact Access.givesUp_pure _
  · rw [map_eq_pure_bind]
    exact (Tree.terse_decoded _ _).givesUp.bind fun _ => Access.givesUp_pure _

theorem givesUp_forget (t : Tree) (e : String) (ref : NodeRef) : (forget t e ref).GivesUp := by
  cases ref with
  | none => exact Access.givesUp_pure _
  | some key =>
      exact (t.givesUp_delete key).bind fun _ =>
        (Access.givesUp_put _ _).bind fun _ => Access.givesUp_pure _

theorem givesUp_insertNew (t : Tree) (key : RankKey) (e : String) :
    (insertNew t key e).GivesUp := by
  refine (t.givesUp_insert key e).bind fun inserted => ?_
  cases inserted with
  | true => exact Access.givesUp_pure _
  | false => trivial

end Ranking

namespace TrackedUpdate

variable {r : Ranking} {name : TreeName} {c : Contents} {ranks : String → NodeRef}

/-- An update gives up at the first failure. -/
theorem givesUp_serve (u : TrackedUpdate) : (u.serve r name).GivesUp := by
  rw [serve_eq]
  refine (Ranking.givesUp_recorded _ _).bind fun current => ?_
  cases u.goal r.settings.tieBreak with
  | none => exact Ranking.givesUp_forget _ _ _
  | some key =>
      dsimp only
      split
      · exact Access.givesUp_pure _
      · have hdelete : ((name.tree r.settings.tombstones).deleteAt current).GivesUp := by
          cases current with
          | none => exact Access.givesUp_pure _
          | some old => exact Tree.givesUp_delete _ old
        exact hdelete.bind fun _ => (Ranking.givesUp_insertNew _ _ _).bind fun _ =>
          (Access.givesUp_put _ _).bind fun _ => Access.givesUp_pure _

/-- An update that breaks off before the put of the record has changed the tree. -/
theorem splits_of_lost {u : TrackedUpdate} (hfits : Codec.Fits u.entity)
    (h : (name.tree r.settings.tombstones).Mirrors c ranks)
    (hfree : ∀ k ∈ u.goal r.settings.tieBreak, ∀ e, ranks e = some k → e = u.entity) {n : Nat}
    {value : Bytes}
    (hlost : ((u.serve r name).eval c).2[n]? = some (name.entityKey u.entity, value)) :
    ranks u.entity ≠ u.goal r.settings.tieBreak ∧
      (name.tree r.settings.tombstones).Splits
        (c.write (((u.serve r name).eval c).2.take n)) ranks
        (Function.update ranks u.entity (u.goal r.settings.tieBreak)) := by
  have hne : ranks u.entity ≠ u.goal r.settings.tieBreak := by
    intro hsame
    rw [serve_eval_of_same h hsame] at hlost
    cases hlost
  obtain ⟨puts, heval, hown, hsplits⟩ := serve_eval_of_ne hfits h hfree hne
  refine ⟨hne, ?_⟩
  rw [heval] at hlost ⊢
  -- the puts before the last one are puts of the tree
  have hn : n = puts.length := by
    rcases Nat.lt_or_ge n puts.length with hlt | hge
    · rw [List.getElem?_append_left hlt] at hlost
      rcases hown _ (List.mem_of_getElem? hlost) with hroot | ⟨k, hnode⟩
      · exact absurd hroot (name.entityKey_ne_rootKey _)
      · exact absurd hnode (name.entityKey_ne_nodeKey _ k)
    · have hlast := (List.getElem?_eq_some_iff.mp hlost).1
      rw [List.length_append, List.length_singleton] at hlast
      omega
  rw [hn, List.take_left]
  exact hsplits

/-! ## Making the update again -/

/-- Nobody is at the old rank of the entity. -/
theorem gone_of_lost {e : String} {placed : NodeRef}
    (hinj : ∀ f g k, ranks f = some k → ranks g = some k → f = g) (hne : ranks e ≠ placed) :
    ∀ k ∈ ranks e, ∀ f, Function.update ranks e placed f ≠ some k := by
  intro k hk f hf
  by_cases hfe : f = e
  · rw [hfe, Function.update_self] at hf
    exact hne (hk.trans hf.symm)
  · rw [Function.update_of_ne hfe] at hf
    exact hfe (hinj f e k hf hk)

section

variable {u : TrackedUpdate} (hinj : ∀ f g k, ranks f = some k → ranks g = some k → f = g)
  (hne : ranks u.entity ≠ u.goal r.settings.tieBreak)
  (h : (name.tree r.settings.tombstones).Splits c ranks
    (Function.update ranks u.entity (u.goal r.settings.tieBreak)))

include hinj hne h

/-- A removal finds nothing in the tree, and empties the record. -/
theorem retry_eval_of_removal (hgoal : u.goal r.settings.tieBreak = none) :
    ∃ puts, (u.serve r name).eval c = (.ok .unchanged, puts) ∧
      (name.tree r.settings.tombstones).Mirrors (c.write puts)
        (Function.update ranks u.entity none) := by
  have hreach := name.maxHeight_le_reach r.settings.tombstones
  have hdelete := h.deleteAt_eval_of_gone hreach (gone_of_lost hinj hne)
  rw [hgoal] at h hne
  obtain ⟨old, hold⟩ := Option.ne_none_iff_exists'.mp hne
  refine ⟨[(name.entityKey u.entity, [])], ?_, h.put_record⟩
  rw [serve_eq, Access.eval_bind_read (h.recorded_eval u.entity), hgoal, hold]
  rw [hold, Tree.deleteAt] at hdelete
  dsimp only
  rw [Ranking.forget, Access.eval_bind_read hdelete, Access.eval_bind (Access.eval_put ..)]
  rfl

/-- An update that gives a rank finds it taken. -/
theorem retry_eval_of_rank {k : RankKey} (hgoal : u.goal r.settings.tieBreak = some k) :
    (u.serve r name).eval c = (.error (.occupied (name.nodeKey k)), []) := by
  have hreach := name.maxHeight_le_reach r.settings.tombstones
  have hdelete := h.deleteAt_eval_of_gone hreach (gone_of_lost hinj hne)
  have htaken := h.insertNew_eval_of_taken hreach
    ((Function.update_self ..).trans hgoal) u.entity
  rw [hgoal] at hne
  rw [serve_eq, Access.eval_bind_read (h.recorded_eval u.entity), hgoal]
  dsimp only
  rw [if_neg hne, Access.eval_bind_read hdelete, Access.eval_bind_error htaken]
  rfl

end

end TrackedUpdate

/-! ## Runs of updates -/

namespace Ranking

variable {σ : Type} [ByteStore σ]

/-- A store after some updates. -/
def after (r : Ranking) (name : TreeName) (us : List TrackedUpdate) (store : σ) : σ :=
  (Access.onEach (us.map (TrackedUpdate.serve r name)) store).2

variable [ReliableStore σ]

/-- The records and the tree agree after a run, and the updates still to come have their ranks
for themselves. -/
theorem mirrors_after {r : Ranking} {name : TreeName} {us vs : List TrackedUpdate} {store : σ}
    {tracks : Tracks}
    (h : Sound store ∧ (name.tree r.settings.tombstones).Mirrors (contents store) tracks.rank)
    (hfits : ∀ u ∈ us, Codec.Fits u.entity) (hapart : TrackedUpdate.Apart (us ++ vs))
    (hreserved : TrackedUpdate.Reserved r.settings.tieBreak (us ++ vs) tracks) :
    ∃ tracks' : Tracks,
      (Sound (r.after name us store) ∧ (name.tree r.settings.tombstones).Mirrors
        (contents (r.after name us store)) tracks'.rank) ∧
      TrackedUpdate.Reserved r.settings.tieBreak vs tracks' := by
  induction us generalizing store tracks with
  | nil => exact ⟨tracks, h, hreserved⟩
  | cons u us ih =>
      have hstep := serve_mirrors_on u (hfits u (.head _)) h hreserved.free
      rw [← TrackedUpdate.rank_apply] at hstep
      exact ih hstep (fun v hv => hfits v (.tail _ hv))
        (fun v hv w hw => hapart v (.tail _ hv) w (.tail _ hw)) (hreserved.apply hapart)

/-- Let an update, after any run of updates in which no two entities share a tie-breaker, lose
the put of the record of its entity only.  Then the record spells the old rank, and the tree has
the entity at the new one.  Made again on the store as it is then, a removal succeeds, and the
records and the tree agree again.  An update that gives a rank fails, since it finds the node
of its own entity there, and leaves all as it is. -/
theorem retry_heals_removals_only (r : Ranking) (name : TreeName) {us : List TrackedUpdate}
    {u : TrackedUpdate} {store : σ} (hstore : Sound store)
    (hfresh : (name.tree r.settings.tombstones).PointsTo (contents store) none)
    (hrecords : ∀ e, (contents store).Spells (name.entityKey e) none)
    (hfits : ∀ v ∈ us ++ [u], Codec.Fits v.entity) (hapart : TrackedUpdate.Apart (us ++ [u]))
    {n : Nat} {value : Bytes}
    (hlost : ((u.serve r name).eval (contents (r.after name us store))).2[n]? =
      some (name.entityKey u.entity, value)) :
    let held := r.after name us store
    let torn := (u.serve r name).interrupted n held
    let retried := (u.serve r name).on torn
    ∃ ranks : String → NodeRef,
      r.Splits name held ranks ranks ∧
      r.Splits name torn ranks (Function.update ranks u.entity (u.goal r.settings.tieBreak)) ∧
      ranks u.entity ≠ u.goal r.settings.tieBreak ∧
      (u.goal r.settings.tieBreak = none →
        retried.1 = .ok .unchanged ∧ r.Agrees name retried.2) ∧
      ∀ k, u.goal r.settings.tieBreak = some k →
        retried.1 = .error (.occupied (name.nodeKey k)) ∧
          r.Splits name retried.2 ranks (Function.update ranks u.entity (some k)) ∧
          ¬ r.Agrees name retried.2 := by
  intro held torn retried
  have hreserved : TrackedUpdate.Reserved r.settings.tieBreak (us ++ [u]) ∅ :=
    fun v _ t _ e count he => by simp [Tracks.rank] at he
  have hempty : Sound store ∧
      (name.tree r.settings.tombstones).Mirrors (contents store) (Tracks.rank ∅) :=
    ⟨hstore, Tree.mirrors_empty hfresh hrecords⟩
  obtain ⟨tracks, ⟨hheld, hmirrors⟩, hreserved⟩ :=
    mirrors_after hempty (fun v hv => hfits v (List.mem_append_left _ hv)) hapart hreserved
  have hu : Codec.Fits u.entity := hfits u (by simp)
  obtain ⟨hne, hsplits⟩ := TrackedUpdate.splits_of_lost hu hmirrors hreserved.free hlost
  obtain ⟨htorn, hcontents⟩ := Access.interrupted_eq u.givesUp_serve hheld n
  rw [← hcontents] at hsplits
  have hinj : ∀ f g k, tracks.rank f = some k → tracks.rank g = some k → f = g :=
    fun _ _ _ hf hg => hmirrors.splits.placed_inj hf hg
  obtain ⟨store', hon, hstore', hcontents', -⟩ := (u.serve r name).on_eq_eval htorn
  refine ⟨tracks.rank, splits_of_mirrors hheld hmirrors, splits_of_contents htorn hsplits, hne,
    fun hgoal => ?_, fun k hgoal => ?_⟩
  · obtain ⟨puts, heval, hhealed⟩ :=
      TrackedUpdate.retry_eval_of_removal hinj hne hsplits hgoal
    rw [heval] at hon hcontents'
    rw [← hcontents'] at hhealed
    show retried.1 = _ ∧ _
    rw [show retried = _ from hon]
    exact ⟨rfl, (splits_of_mirrors hstore' hhealed).agrees_iff.mpr rfl⟩
  · have heval := TrackedUpdate.retry_eval_of_rank hinj hne hsplits hgoal
    rw [heval] at hon hcontents'
    rw [Contents.write_nil] at hcontents'
    rw [← hcontents', hgoal] at hsplits
    rw [hgoal] at hne
    have hretried := splits_of_contents hstore' hsplits
    rw [show retried = _ from hon]
    refine ⟨rfl, hretried, ?_⟩
    rw [hretried.agrees_iff, eq_comm, Function.update_eq_self_iff, eq_comm]
    exact hne

namespace Lost

/-- The name of the tree. -/
def name : TreeName := .t

/-- The first update of an entity. -/
def first : TrackedUpdate := .reindex "a" 1 7

/-- What it leaves in an empty store if it loses the record. -/
def torn : MemoryStore := (first.serve {} name).interrupted 2 {}

/-- The rank that it gives. -/
def key : RankKey := Ranking.rankKey {} 1 7

end Lost

/-- The first update of the only entity loses the record.  Made again it finds the node that it
made itself, and fails; the entity has no recorded rank, and the tree has it. -/
theorem retry_meets_own_node :
    TrackedUpdate.Apart [Lost.first] ∧
      ((Lost.first.serve {} Lost.name).eval (contents ({} : MemoryStore))).2[2]? =
        some (Lost.name.entityKey "a", Lost.key.encode) ∧
      ((Lost.first.serve {} Lost.name).on Lost.torn).1 =
        .error (.occupied (Lost.name.nodeKey Lost.key)) ∧
      ((currentRank {} Lost.name.text "a").on
        ((Lost.first.serve {} Lost.name).on Lost.torn).2).1 = .ok none ∧
      (((Lost.name.tree true).search Lost.key).on
        ((Lost.first.serve {} Lost.name).on Lost.torn).2).1 = .ok (some "a") := by
  refine ⟨?_, ?_, ?_, ?_, ?_⟩ <;> decide +kernel

/-- The removal of the only entity loses the record, and succeeds when it is made again. -/
theorem retry_heals_removals_only_last :
    let torn := ((TrackedUpdate.unindex "a").serve {} Lost.name).interrupted 2
      (after {} Lost.name [Lost.first] ({} : MemoryStore))
    let retried := ((TrackedUpdate.unindex "a").serve {} Lost.name).on torn
    retried.1 = .ok .unchanged ∧ Agrees {} Lost.name retried.2 := by
  obtain ⟨-, -, -, -, hremoval, -⟩ :=
    @retry_heals_removals_only MemoryStore _ _ {} Lost.name [Lost.first] (.unindex "a") {} trivial
      (.inl (by simp [contents])) (fun e => .inl (by simp [contents])) (by decide) (by decide) 2 []
      (by decide +kernel)
  exact hremoval rfl

end Ranking

end Leaderboard
