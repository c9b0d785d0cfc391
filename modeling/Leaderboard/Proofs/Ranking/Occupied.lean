import Leaderboard.Proofs.Ranking.Tracking

/-!
# Ranks that are taken

An update that looks the old rank up takes its entity out of the tree before it
finds that another entity has the new rank.  It fails then, and the record of the
entity is not written: the entity is in the tree no more, and its record still
spells the old rank (`Ranking.occupied_leaves_record`).

So the records and the tree agree after such a failure just if the entity had no
rank before.  In `Ranking.occupied_breaks_agreement` it had one.
-/

namespace Leaderboard

open ReliableStore (Sound contents)

variable {c : Contents}

/-- An update to a rank of another entity takes its own entity out of the tree and fails. -/
theorem TrackedUpdate.serve_eval_of_taken {u : TrackedUpdate} {r : Ranking} {name : TreeName}
    {ranks : String → NodeRef} (h : (name.tree r.settings.tombstones).Mirrors c ranks)
    {k : RankKey} (hgoal : u.goal r.settings.tieBreak = some k) {f : String} (hne : f ≠ u.entity)
    (hf : ranks f = some k) :
    ∃ puts, (u.serve r name).eval c = (.error (.occupied (name.nodeKey k)), puts) ∧
      (name.tree r.settings.tombstones).Splits (c.write puts) ranks
        (Function.update ranks u.entity none) := by
  have hreach := name.maxHeight_le_reach r.settings.tombstones
  obtain ⟨puts, hdelete, -, hsplits⟩ := h.splits.deleteAt_eval hreach u.entity
  have htaken : Function.update ranks u.entity none f = some k := by
    rw [Function.update_of_ne hne, hf]
  have hcurrent : ranks u.entity ≠ some k := fun he => hne (h.splits.placed_inj hf he)
  refine ⟨puts, ?_, hsplits⟩
  rw [serve_eq, Access.eval_bind_read (h.recorded_eval u.entity), hgoal]
  dsimp only
  rw [if_neg hcurrent, Access.eval_bind hdelete,
    Access.eval_bind_error (hsplits.insertNew_eval_of_taken hreach htaken u.entity),
    List.append_nil]
  rfl

namespace Ranking

/-- An entity is recorded with a rank key just if the tree has it there. -/
def Agrees {σ : Type} [ByteStore σ] (r : Ranking) (name : TreeName) (store : σ) : Prop :=
  ∀ e k, ((r.currentRank name.text e).on store).1 = .ok (some k) ↔
    (((name.tree r.settings.tombstones).search k).on store).1 = .ok (some e)

section

variable {σ : Type} [ByteStore σ] {r : Ranking} {name : TreeName} {store : σ}
  {ranks placed : String → NodeRef}

/-- The records spell some ranks, and the tree has the entities at others or the same. -/
structure Splits (r : Ranking) (name : TreeName) (store : σ) (ranks placed : String → NodeRef) :
    Prop where
  /-- Every entity is recorded with its rank. -/
  currentRank_eq : ∀ e, ((r.currentRank name.text e).on store).1 = .ok (ranks e)
  /-- The tree has every entity at its place. -/
  search_eq : ∀ k, ∃ payload,
    (((name.tree r.settings.tombstones).search k).on store).1 = .ok payload ∧
      ∀ e, payload = some e ↔ placed e = some k

theorem Splits.agrees_iff (h : r.Splits name store ranks placed) :
    r.Agrees name store ↔ ranks = placed := by
  have hiff : r.Agrees name store ↔ ∀ e k, ranks e = some k ↔ placed e = some k := by
    refine forall_congr' fun e => forall_congr' fun k => ?_
    obtain ⟨payload, hpayload, hplaced⟩ := h.search_eq k
    rw [h.currentRank_eq, hpayload, Except.ok.injEq, Except.ok.injEq, hplaced]
  rw [hiff]
  constructor
  · exact fun h => funext fun e => Option.ext fun k => h e k
  · rintro rfl _ _
    rfl

variable [ReliableStore σ]

/-- A store whose records and tree differ, or not. -/
theorem splits_of_contents (hstore : Sound store)
    (h : (name.tree r.settings.tombstones).Splits (contents store) ranks placed) :
    r.Splits name store ranks placed where
  currentRank_eq e := by
    rw [Access.on_fst _ hstore, currentRank, withTree_text, h.recorded_eval]
  search_eq k := by
    obtain ⟨payload, heval, hpayload⟩ :=
      h.search_eval (name.maxHeight_le_reach r.settings.tombstones) k
    exact ⟨payload, by rw [Access.on_fst _ hstore, heval], hpayload⟩

/-- A store that mirrors ranks. -/
theorem splits_of_mirrors (hstore : Sound store)
    (h : (name.tree r.settings.tombstones).Mirrors (contents store) ranks) :
    r.Splits name store ranks ranks :=
  splits_of_contents hstore h.splits

/-- What an update leaves in a store. -/
theorem serve_mirrors_on (u : TrackedUpdate) (hfits : Codec.Fits u.entity)
    (h : Sound store ∧ (name.tree r.settings.tombstones).Mirrors (contents store) ranks)
    (hfree : ∀ k ∈ u.goal r.settings.tieBreak, ∀ e, ranks e = some k → e = u.entity) :
    Sound ((u.serve r name).on store).2 ∧
      (name.tree r.settings.tombstones).Mirrors (contents ((u.serve r name).on store).2)
        (Function.update ranks u.entity (u.goal r.settings.tieBreak)) := by
  obtain ⟨puts, heval, hmirrors⟩ := u.serve_mirrors hfits h.2 hfree
  obtain ⟨store', hon, hstore', hcontents, -⟩ := (u.serve r name).on_eq_eval h.1
  rw [heval] at hcontents
  rw [hon]
  exact ⟨hstore', hcontents ▸ hmirrors⟩

/-- An update to a rank of another entity fails, and takes its own entity out of the tree only. -/
theorem splits_of_taken {u : TrackedUpdate} (hstore : Sound store)
    (h : (name.tree r.settings.tombstones).Mirrors (contents store) ranks) {k : RankKey}
    (hgoal : u.goal r.settings.tieBreak = some k) {f : String} (hne : f ≠ u.entity)
    (hf : ranks f = some k) :
    ((u.serve r name).on store).1 = .error (.occupied (name.nodeKey k)) ∧
      r.Splits name ((u.serve r name).on store).2 ranks (Function.update ranks u.entity none) := by
  obtain ⟨puts, heval, hsplits⟩ := TrackedUpdate.serve_eval_of_taken h hgoal hne hf
  obtain ⟨store', hon, hstore', hcontents, -⟩ := (u.serve r name).on_eq_eval hstore
  rw [heval] at hon hcontents
  rw [hon]
  exact ⟨rfl, splits_of_contents hstore' (hcontents ▸ hsplits)⟩

/-- An update that finds its rank taken has taken the entity out of the tree and left its record.
So the records and the tree agree after it just if the entity had no rank before. -/
theorem occupied_leaves_record {e : String} {count : Int64} {tie : UInt64} {key : Bytes}
    (hstore : Sound store)
    (h : (name.tree r.settings.tombstones).Mirrors (contents store) ranks)
    (hfits : Codec.Fits e)
    (hoccupied : ((r.reindex name.text e count tie).on store).1 = .error (.occupied key)) :
    (∃ f, f ≠ e ∧ ranks f = some (r.rankKey count tie)) ∧
      r.Splits name ((r.reindex name.text e count tie).on store).2 ranks
        (Function.update ranks e none) ∧
      (r.Agrees name ((r.reindex name.text e count tie).on store).2 ↔ ranks e = none) := by
  let u := TrackedUpdate.reindex e count tie
  have hserve : r.reindex name.text e count tie = u.serve r name := rfl
  -- the update fails only at a rank of another entity
  obtain ⟨hgoal, f, hne, hf⟩ : u.goal r.settings.tieBreak = some (r.rankKey count tie) ∧
      ∃ f, f ≠ e ∧ ranks f = some (r.rankKey count tie) := by
    by_contra hfree
    have hfree' : ∀ k ∈ u.goal r.settings.tieBreak, ∀ f, ranks f = some k → f = e := by
      intro k hk f hf
      have hk' : k = r.rankKey count tie := by
        simp only [u, TrackedUpdate.goal, Option.mem_def, Option.ite_none_left_eq_some,
          Option.some.injEq] at hk
        exact hk.2.symm
      subst hk'
      by_contra hne
      exact hfree ⟨hk, f, hne, hf⟩
    obtain ⟨puts, heval, -⟩ := u.serve_mirrors hfits h hfree'
    rw [Access.on_fst _ hstore, hserve, heval] at hoccupied
    cases hoccupied
  have hsplits := (splits_of_taken hstore h hgoal hne hf).2
  refine ⟨⟨f, hne, hf⟩, hsplits, hsplits.agrees_iff.trans ?_⟩
  rw [eq_comm, Function.update_eq_self_iff, eq_comm]
  rfl

end

/-! ## Two entities with one tie-breaker -/

namespace Tied

/-- The name of the tree. -/
def name : TreeName := .t

/-- A store in which an entity has a rank. -/
def alone : MemoryStore := (((TrackedUpdate.reindex "a" 1 7).serve {} name).on {}).2

/-- A store in which two entities have ranks with the same tie-breaker. -/
def store : MemoryStore := (((TrackedUpdate.reindex "b" 2 7).serve {} name).on alone).2

/-- The rank keys of the two entities. -/
def ranks : String → NodeRef :=
  Function.update (Function.update (fun _ => none) "a" (some (Ranking.rankKey {} 1 7)))
    "b" (some (Ranking.rankKey {} 2 7))

/-- The update of the first entity to the rank of the second one leads to that rank. -/
theorem goal_eq (e : String) {count : Int64} (hcount : ¬ count ≤ 0) :
    (TrackedUpdate.reindex e count 7).goal .olderFirst = some (Ranking.rankKey {} count 7) :=
  if_neg hcount

theorem mirrors : (name.tree true).Mirrors (contents store) ranks := by
  have hempty : (name.tree true).Mirrors (contents ({} : MemoryStore)) fun _ => none :=
    Tree.mirrors_empty (.inl (by simp [contents])) fun e => .inl (by simp [contents])
  have halone := serve_mirrors_on (r := {}) (.reindex "a" 1 7) (by decide) ⟨trivial, hempty⟩
    (by simp)
  rw [goal_eq "a" (by decide)] at halone
  have hstore := serve_mirrors_on (r := {}) (.reindex "b" 2 7) (by decide) halone ?_
  · rw [goal_eq "b" (by decide)] at hstore
    rw [store, alone, ranks]
    exact hstore.2
  · rw [goal_eq "b" (by decide)]
    intro k hk e he
    cases hk
    simp only [Function.update_apply] at he
    split at he
    · exact absurd he (by decide)
    · cases he

/-- The rank of the second entity is taken. -/
theorem splits :
    ((Ranking.reindex {} name.text "a" 2 7).on store).1 =
        .error (.occupied (name.nodeKey (Ranking.rankKey {} 2 7))) ∧
      Ranking.Splits {} name ((Ranking.reindex {} name.text "a" 2 7).on store).2 ranks
        (Function.update ranks "a" none) :=
  splits_of_taken (r := {}) (u := .reindex "a" 2 7) trivial mirrors (goal_eq "a" (by decide))
    (f := "b") (by decide) (Function.update_self ..)

end Tied

/-- The records and the tree agree, and after an update that fails they do not. -/
theorem occupied_breaks_agreement :
    Ranking.Agrees {} Tied.name Tied.store ∧
      ((Ranking.reindex {} Tied.name.text "a" 2 7).on Tied.store).1 =
        .error (.occupied (Tied.name.nodeKey (Ranking.rankKey {} 2 7))) ∧
      ¬ Ranking.Agrees {} Tied.name
        ((Ranking.reindex {} Tied.name.text "a" 2 7).on Tied.store).2 := by
  obtain ⟨hoccupied, hsplits⟩ := Tied.splits
  refine ⟨(splits_of_mirrors (r := {}) trivial Tied.mirrors).agrees_iff.mpr rfl, hoccupied, ?_⟩
  rw [hsplits.agrees_iff]
  intro h
  have ha := congrFun h "a"
  rw [Function.update_self] at ha
  exact absurd ha (by decide)

/-- The first entity loses its place to the second one, and keeps its record. -/
theorem occupied_leaves_record_tied :
    (∃ f, f ≠ "a" ∧ Tied.ranks f = some (Ranking.rankKey {} 2 7)) ∧
      Ranking.Splits {} Tied.name ((Ranking.reindex {} Tied.name.text "a" 2 7).on Tied.store).2
        Tied.ranks (Function.update Tied.ranks "a" none) ∧
      (Ranking.Agrees {} Tied.name ((Ranking.reindex {} Tied.name.text "a" 2 7).on Tied.store).2 ↔
        Tied.ranks "a" = none) :=
  occupied_leaves_record trivial Tied.mirrors (by decide) Tied.splits.1

end Ranking

end Leaderboard
