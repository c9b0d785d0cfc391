import Leaderboard.Proofs.Ranking.Mirror

/-!
# Runs of updates that look the old rank up

`TrackedUpdate.apply` says what such an update makes of the ranks of all entities,
and `TrackedUpdate.outcome` what it is answered.  `Ranking.KeepsTrack` says of a run
of them that each is answered so, and that in between the recorded ranks and the
tree are each other's inverse (`Ranking.Tracking`).

`Ranking.keepsTrack_of_apart` is the statement.  It asks that no two entities ever
share a tie-breaker.  One update only asks that no other entity has the rank that
it gives (`TrackedUpdate.serve_mirrors`).  A run keeps that the tie-breakers of the
updates still to come are their entities' own (`TrackedUpdate.Reserved`).
-/

namespace Leaderboard

/-- The rank keys of the entities that have one. -/
abbrev Tracks := Std.TreeMap String RankKey

/-- The rank key of each entity, if it has one. -/
def Tracks.rank (tracks : Tracks) (e : String) : NodeRef := tracks[e]?

/-- An update of an entity whose old rank is looked up. -/
inductive TrackedUpdate where
  /-- The entity has a new count. -/
  | reindex (entity : String) (newCount : Int64) (tieBreaker : UInt64)
  /-- The entity is removed. -/
  | unindex (entity : String)
deriving DecidableEq, Repr

namespace TrackedUpdate

/-- Makes an update. -/
def serve (r : Ranking) (name : TreeName) : TrackedUpdate → Access Transition
  | reindex entity newCount tieBreaker => r.reindex name.text entity newCount tieBreaker
  | unindex entity => r.unindex name.text entity

/-- The entity of an update. -/
def entity : TrackedUpdate → String
  | reindex entity _ _ | unindex entity => entity

/-- The tie-breaker that an update uses. -/
def tieBreaker : TrackedUpdate → Option UInt64
  | reindex _ _ tieBreaker => some tieBreaker
  | unindex _ => none

/-- The rank key that an update leaves its entity with. -/
def goal (p : TieBreak) : TrackedUpdate → NodeRef
  | reindex _ newCount tieBreaker =>
      if newCount ≤ 0 then none else some (p.key (newCount, tieBreaker))
  | unindex _ => none

/-- What an update makes of the rank keys. -/
def apply (p : TieBreak) (u : TrackedUpdate) (tracks : Tracks) : Tracks :=
  match u.goal p with
  | some key => tracks.insert u.entity key
  | none => tracks.erase u.entity

/-- The transition from one rank key to another. -/
def transition : NodeRef → NodeRef → Transition
  | none, none => .unchanged
  | none, some _ => .indexed
  | some _, none => .unindexed
  | some old, some new => if old = new then .unchanged else .reindexed

/-- What an update is answered. -/
def outcome (p : TieBreak) (u : TrackedUpdate) (tracks : Tracks) : Transition :=
  transition tracks[u.entity]? (u.goal p)

/-- No two entities share a tie-breaker. -/
def Apart (us : List TrackedUpdate) : Prop :=
  ∀ u ∈ us, ∀ v ∈ us, u.tieBreaker.isSome → u.tieBreaker = v.tieBreaker → u.entity = v.entity

instance : DecidablePred Apart := fun us =>
  inferInstanceAs (Decidable (∀ u ∈ us, ∀ v ∈ us, u.tieBreaker.isSome →
    u.tieBreaker = v.tieBreaker → u.entity = v.entity))

end TrackedUpdate

namespace Ranking

/-- The recorded ranks are those of a map, and the tree has the entities at them.
A list of all entities names each of them once. -/
structure Tracking {σ : Type} [ByteStore σ] (r : Ranking) (name : TreeName) (store : σ)
    (tracks : Tracks) : Prop where
  /-- Every entity is recorded with its rank key. -/
  currentRank_eq : ∀ e, ((r.currentRank name.text e).on store).1 = .ok tracks[e]?
  /-- The tree has an entity at a key just if that is its rank key. -/
  search_eq : ∀ k, ∃ payload,
    (((name.tree r.settings.tombstones).search k).on store).1 = .ok payload ∧
      ∀ e, tracks[e]? = some k ↔ payload = some e
  /-- Every entity is listed once, if a word of eight bytes can count them. -/
  top_perm : tracks.size < UInt64.size → ∀ n, tracks.size ≤ n →
    ∃ listed, ((r.top name.text n).on store).1 = .ok listed ∧ listed.Perm tracks.keys

/-- A store keeps track of the ranks of entities over a run of updates. -/
def KeepsTrack {σ : Type} [ByteStore σ] (r : Ranking) (name : TreeName) :
    List TrackedUpdate → σ → Tracks → Prop
  | [], store, tracks => r.Tracking name store tracks
  | u :: us, store, tracks =>
      r.Tracking name store tracks ∧
        ((u.serve r name).on store).1 = .ok (u.outcome r.settings.tieBreak tracks) ∧
        KeepsTrack r name us ((u.serve r name).on store).2 (u.apply r.settings.tieBreak tracks)

end Ranking

open ReliableStore (Sound contents)

variable {r : Ranking} {name : TreeName} {c : Contents} {ranks : String → NodeRef}

namespace TrackedUpdate

/-- The key of an update has its tie-breaker. -/
theorem goal_eq_some {p : TieBreak} {u : TrackedUpdate} {k : RankKey} (h : u.goal p = some k) :
    ∃ t ∈ u.tieBreaker, ∃ count, k = p.key (count, t) := by
  cases u with
  | reindex entity newCount tieBreaker =>
      rw [goal] at h
      split at h
      · cases h
      · cases h
        exact ⟨tieBreaker, rfl, newCount, rfl⟩
  | unindex entity => cases h

theorem goal_made {p : TieBreak} {u : TrackedUpdate} {k : RankKey} (h : u.goal p = some k) :
    k.Made := by
  obtain ⟨t, -, count, rfl⟩ := goal_eq_some h
  exact TieBreak.made_key _

/-- An update looks the old rank up, and then forgets the entity or moves it. -/
theorem serve_eq (u : TrackedUpdate) :
    u.serve r name = (do
      let t := name.tree r.settings.tombstones
      let current ← Ranking.recorded t u.entity
      match u.goal r.settings.tieBreak with
      | none => Ranking.forget t u.entity current
      | some key =>
          if current = some key then pure .unchanged
          else do
            let deleted ← t.deleteAt current
            Ranking.insertNew t key u.entity
            Access.put (t.name.entityKey u.entity) key.encode
            pure (Transition.of deleted true)) := by
  cases u with
  | reindex entity newCount tieBreaker =>
      rw [serve, Ranking.reindex, Ranking.withTree_text, goal]
      refine congrArg _ (funext fun current => ?_)
      split
      · rfl
      · cases current <;> rfl
  | unindex entity =>
      rw [serve, Ranking.unindex, Ranking.withTree_text]
      rfl

/-- Forgetting an entity takes it out of the tree, and then empties its record. -/
theorem forget_eval {t : Tree} (h : t.Mirrors c ranks) (hreach : Avl.maxHeight ≤ t.reach)
    {e : String} {k : RankKey} (he : ranks e = some k) :
    ∃ puts, (Ranking.forget t e (ranks e)).eval c =
        (.ok .unindexed, puts ++ [(t.name.entityKey e, [])]) ∧ t.Own puts ∧
      t.Splits (c.write puts) ranks (Function.update ranks e none) := by
  obtain ⟨puts, heval, hown, hsplits⟩ := h.splits.deleteAt_eval hreach e
  rw [he, Tree.deleteAt] at heval
  refine ⟨puts, ?_, hown, hsplits⟩
  rw [he, Ranking.forget, Access.eval_bind heval, Access.eval_bind (Access.eval_put ..)]
  rfl

/-- Moving an entity to a rank that no entity has moves it in the tree, and then records the
rank. -/
theorem move_eval {t : Tree} (h : t.Mirrors c ranks) (hreach : Avl.maxHeight ≤ t.reach)
    {e : String} (hfits : Codec.Fits e) {k : RankKey} (hmade : k.Made)
    (hfree : ∀ f, ranks f ≠ some k) :
    ∃ puts,
      (do
        let deleted ← t.deleteAt (ranks e)
        Ranking.insertNew t k e
        Access.put (t.name.entityKey e) k.encode
        pure (Transition.of deleted true) : Access Transition).eval c =
          (.ok (transition (ranks e) (some k)), puts ++ [(t.name.entityKey e, k.encode)]) ∧
        t.Own puts ∧ t.Splits (c.write puts) ranks (Function.update ranks e (some k)) := by
  obtain ⟨puts, hdelete, hown, hsplits⟩ := h.splits.deleteAt_eval hreach e
  have hfree' : ∀ f, Function.update ranks e none f ≠ some k := by
    intro f
    by_cases hf : f = e
    · rw [hf, Function.update_self]
      exact Option.some_ne_none k |>.symm
    · rw [Function.update_of_ne hf]
      exact hfree f
  obtain ⟨puts', hinsert, hown', hsplits'⟩ :=
    hsplits.insertNew_eval hreach hfits hmade (Function.update_self ..) hfree'
  rw [Function.update_idem, ← Contents.write_append] at hsplits'
  refine ⟨puts ++ puts', ?_, fun p hp => ?_, hsplits'⟩
  · rw [Access.eval_bind hdelete, Access.eval_bind hinsert, Access.eval_bind (Access.eval_put ..),
      List.append_assoc]
    cases he : ranks e with
    | none => rfl
    | some old =>
        rw [transition, if_neg fun h => hfree e (he.trans (congrArg some h))]
        rfl
  · rcases List.mem_append.mp hp with hp | hp
    · exact hown p hp
    · exact hown' p hp

/-- An update to the rank that its entity has does nothing. -/
theorem serve_eval_of_same {u : TrackedUpdate}
    (h : (name.tree r.settings.tombstones).Mirrors c ranks)
    (hsame : ranks u.entity = u.goal r.settings.tieBreak) :
    (u.serve r name).eval c = (.ok .unchanged, []) := by
  rw [serve_eq, Access.eval_bind_read (h.recorded_eval u.entity), hsame]
  cases u.goal r.settings.tieBreak with
  | none => rfl
  | some key =>
      dsimp only
      rw [if_pos rfl]
      rfl

/-- Any other update changes the tree, and then puts the record of its entity. -/
theorem serve_eval_of_ne {u : TrackedUpdate} (hfits : Codec.Fits u.entity)
    (h : (name.tree r.settings.tombstones).Mirrors c ranks)
    (hfree : ∀ k ∈ u.goal r.settings.tieBreak, ∀ e, ranks e = some k → e = u.entity)
    (hne : ranks u.entity ≠ u.goal r.settings.tieBreak) :
    ∃ puts, (u.serve r name).eval c =
        (.ok (transition (ranks u.entity) (u.goal r.settings.tieBreak)),
          puts ++ [(name.entityKey u.entity,
            ((u.goal r.settings.tieBreak).map RankKey.encode).getD [])]) ∧
      (name.tree r.settings.tombstones).Own puts ∧
      (name.tree r.settings.tombstones).Splits (c.write puts) ranks
        (Function.update ranks u.entity (u.goal r.settings.tieBreak)) := by
  have hreach := name.maxHeight_le_reach r.settings.tombstones
  rw [serve_eq, Access.eval_bind_read (h.recorded_eval u.entity)]
  cases hgoal : u.goal r.settings.tieBreak with
  | none =>
      cases he : ranks u.entity with
      | none => exact absurd (he.trans hgoal.symm) hne
      | some k =>
          rw [← he]
          obtain ⟨puts, heval, hown, hsplits⟩ := forget_eval h hreach he
          exact ⟨puts, by rw [heval, he]; rfl, hown, hsplits⟩
  | some key =>
      rw [hgoal] at hne
      dsimp only
      rw [if_neg hne]
      refine move_eval h hreach hfits (goal_made hgoal) fun e he => hne ?_
      rw [← hfree key (Option.mem_def.mpr hgoal) e he]
      exact he

/-- One update. -/
theorem serve_mirrors (u : TrackedUpdate) (hfits : Codec.Fits u.entity)
    (h : (name.tree r.settings.tombstones).Mirrors c ranks)
    (hfree : ∀ k ∈ u.goal r.settings.tieBreak, ∀ e, ranks e = some k → e = u.entity) :
    ∃ puts, (u.serve r name).eval c =
        (.ok (transition (ranks u.entity) (u.goal r.settings.tieBreak)), puts) ∧
      (name.tree r.settings.tombstones).Mirrors (c.write puts)
        (Function.update ranks u.entity (u.goal r.settings.tieBreak)) := by
  by_cases hsame : ranks u.entity = u.goal r.settings.tieBreak
  · refine ⟨[], ?_, ?_⟩
    · rw [serve_eval_of_same h hsame, hsame]
      cases u.goal r.settings.tieBreak <;> simp [transition]
    · rw [← hsame, Function.update_eq_self]
      exact h
  · obtain ⟨puts, heval, -, hsplits⟩ := serve_eval_of_ne hfits h hfree hsame
    refine ⟨_, heval, ?_⟩
    rw [Contents.write_append]
    exact hsplits.put_record

/-! ## Runs -/

/-- What an update does to the rank keys of all entities. -/
theorem rank_apply (p : TieBreak) (u : TrackedUpdate) (tracks : Tracks) :
    (u.apply p tracks).rank = Function.update tracks.rank u.entity (u.goal p) := by
  funext e
  rw [apply, Function.update_apply]
  cases u.goal p with
  | none =>
      exact Tree.getElem?_erase tracks u.entity e
  | some key =>
      simp only [Tracks.rank, Std.TreeMap.getElem?_insert, Std.LawfulEqOrd.compare_eq_iff_eq,
        @eq_comm _ e]

/-- No entity has a rank with the tie-breaker that an update uses, but the update's
own. -/
def Reserved (p : TieBreak) (us : List TrackedUpdate) (tracks : Tracks) : Prop :=
  ∀ u ∈ us, ∀ t ∈ u.tieBreaker, ∀ e count,
    tracks.rank e = some (p.key (count, t)) → e = u.entity

/-- So the rank that the next update gives is free, or its entity has it. -/
theorem Reserved.free {p : TieBreak} {u : TrackedUpdate} {us : List TrackedUpdate}
    {tracks : Tracks} (h : Reserved p (u :: us) tracks) :
    ∀ k ∈ u.goal p, ∀ e, tracks.rank e = some k → e = u.entity := by
  intro k hk e he
  obtain ⟨t, ht, count, rfl⟩ := goal_eq_some hk
  exact h u (.head _) t ht e count he

theorem Reserved.apply {p : TieBreak} {u : TrackedUpdate} {us : List TrackedUpdate}
    {tracks : Tracks} (h : Reserved p (u :: us) tracks) (hapart : Apart (u :: us)) :
    Reserved p us (u.apply p tracks) := by
  intro v hv t ht e count he
  rw [rank_apply] at he
  by_cases heu : e = u.entity
  · subst heu
    rw [Function.update_self] at he
    obtain ⟨t', ht', count', hkey⟩ := goal_eq_some he
    cases TieBreak.key_inj.mp hkey
    rw [Option.mem_def] at ht ht'
    exact hapart u (.head _) v (.tail _ hv) (by rw [ht']; rfl) (ht'.trans ht.symm)
  · rw [Function.update_of_ne heu] at he
    exact h v (.tail _ hv) t ht e count he

end TrackedUpdate

namespace Ranking

/-- What the contents mirror shows in the store. -/
theorem tracking_of_mirrors {σ : Type} [ByteStore σ] [ReliableStore σ] {store : σ}
    {tracks : Tracks} (hstore : Sound store)
    (h : (name.tree r.settings.tombstones).Mirrors (contents store) tracks.rank) :
    r.Tracking name store tracks where
  currentRank_eq e := by
    rw [Access.on_fst _ hstore, currentRank, withTree_text, h.recorded_eval]
    rfl
  search_eq k := by
    have hreach := name.maxHeight_le_reach r.settings.tombstones
    obtain ⟨payload, heval, hpayload⟩ := h.splits.search_eval hreach k
    refine ⟨payload, ?_, fun e => (hpayload e).symm⟩
    rw [Access.on_fst _ hstore, heval]
  top_perm hsize n hn := by
    have hranked : ∀ e, e ∈ tracks.keys ↔ ∃ k, tracks.rank e = some k := by
      intro e
      rw [Std.TreeMap.mem_keys, Std.TreeMap.mem_iff_isSome_getElem?, Option.isSome_iff_exists]
      rfl
    rw [← Std.TreeMap.length_keys] at hsize hn
    obtain ⟨listed, heval, hlisted⟩ := h.top_eval Std.TreeMap.nodup_keys hranked hsize hn
    refine ⟨listed, ?_, hlisted⟩
    rw [Access.on_fst _ hstore, top, withTree_text, heval]

/-- A run keeps what its first update left. -/
theorem keepsTrack_of_mirrors {σ : Type} [ByteStore σ] [ReliableStore σ]
    {us : List TrackedUpdate} {store : σ} {tracks : Tracks} (hstore : Sound store)
    (h : (name.tree r.settings.tombstones).Mirrors (contents store) tracks.rank)
    (hfits : ∀ u ∈ us, Codec.Fits u.entity) (hapart : TrackedUpdate.Apart us)
    (hreserved : TrackedUpdate.Reserved r.settings.tieBreak us tracks) :
    r.KeepsTrack name us store tracks := by
  induction us generalizing store tracks with
  | nil => exact tracking_of_mirrors hstore h
  | cons u us ih =>
      obtain ⟨puts, heval, hmirrors⟩ := u.serve_mirrors (hfits u (.head _)) h hreserved.free
      obtain ⟨store', hon, hstore', hcontents, -⟩ := Access.on_eq_eval (u.serve r name) hstore
      rw [heval] at hon hcontents
      rw [← hcontents, ← TrackedUpdate.rank_apply] at hmirrors
      refine ⟨tracking_of_mirrors hstore h, ?_, ?_⟩
      · rw [hon]
        rfl
      · rw [hon]
        exact ih hstore' hmirrors (fun v hv => hfits v (.tail _ hv))
          (fun v hv w hw => hapart v (.tail _ hv) w (.tail _ hw)) (hreserved.apply hapart)

/-- A store that never fails keeps track of the ranks of entities over every run of
updates in which no two entities share a tie-breaker, if neither a root nor a rank
is recorded at first. -/
theorem keepsTrack_of_apart {σ : Type} [ByteStore σ] [ReliableStore σ] (r : Ranking)
    (name : TreeName) {us : List TrackedUpdate} {store : σ} (hstore : Sound store)
    (hfresh : (name.tree r.settings.tombstones).PointsTo (contents store) none)
    (hrecords : ∀ e, (contents store).Spells (name.entityKey e) none)
    (hfits : ∀ u ∈ us, Codec.Fits u.entity) (hapart : TrackedUpdate.Apart us) :
    r.KeepsTrack name us store ∅ := by
  refine keepsTrack_of_mirrors hstore ?_ hfits hapart ?_
  · exact Tree.mirrors_empty hfresh hrecords
  · intro u hu t ht e count he
    simp [Tracks.rank] at he

/-- The first entity changes its tie-breaker, and both are removed. -/
theorem keepsTrack_of_apart_memory :
    KeepsTrack {} ⟨"t", by decide, by decide⟩
      [.reindex "a" 2 7, .reindex "b" 1 8, .reindex "a" 2 9, .reindex "b" 2 8, .unindex "a",
        .reindex "b" 0 8]
      ({} : MemoryStore) ∅ :=
  keepsTrack_of_apart {} _ trivial (.inl (by simp [contents])) (fun e => .inl (by simp [contents]))
    (by decide) (by decide)

end Ranking

end Leaderboard
