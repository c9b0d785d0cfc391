import Leaderboard.Proofs.Ranking.Listing

/-!
# Runs of updates

`CountUpdate.apply` says what an update makes of a listing, and
`CountUpdate.outcome` what it is answered.  The rank of the old count is taken off
the listing in any case, also when the update then fails because the rank of the
new count is taken.

`Ranking.Follows` says of a run of updates that each of them is answered so, and
that in between the entities that rank highest are those that stand first in the
listing.  `Ranking.follows_of_fits` is the statement, and one update is
`CountUpdate.serve_lists`.
-/

namespace Leaderboard

/-- A change of an entity's count. -/
structure CountUpdate where
  /-- The entity. -/
  entity : String
  /-- Its count from now on. -/
  newCount : Int64
  /-- The count that it had, if it had one. -/
  oldCount : Option Int64
  /-- What ranks it among entities of its count. -/
  tieBreaker : UInt64
  /-- Whether it is to be removed whatever its count. -/
  remove : Bool
deriving DecidableEq, Repr

namespace CountUpdate

/-- Makes an update. -/
def serve (r : Ranking) (name : TreeName) (u : CountUpdate) : Access Transition :=
  r.update name.text u.entity u.newCount u.oldCount u.tieBreaker u.remove

/-- The rank of the old count. -/
def oldRank (u : CountUpdate) : Option Rank := u.oldCount.map (·, u.tieBreaker)

/-- The rank of the new count. -/
def newRank (u : CountUpdate) : Rank := (u.newCount, u.tieBreaker)

/-- Whether the entity is to be listed. -/
def lists (u : CountUpdate) : Bool := !u.remove && decide (u.newCount > 0)

variable {p : TieBreak}

/-- The listing without the rank of the old count. -/
def left (u : CountUpdate) (l : Listing p) : Listing p :=
  match u.oldRank with
  | some rank => l.erase rank
  | none => l

/-- Whether the rank of the old count is in the listing. -/
def deletes (u : CountUpdate) (l : Listing p) : Bool :=
  match u.oldRank with
  | some rank => l.contains rank
  | none => false

/-- The listing after an update. -/
def apply (u : CountUpdate) (l : Listing p) : Listing p :=
  if u.lists then (u.left l).insertIfNew u.newRank u.entity else u.left l

/-- What an update is answered. -/
def outcome (name : TreeName) (u : CountUpdate) (l : Listing p) : Except Failure Transition :=
  if u.lists ∧ u.newRank ∈ u.left l then .error (.occupied (name.nodeKey (p.key u.newRank)))
  else
    match u.deletes l, u.lists with
    | false, true => .ok .indexed
    | true, true => .ok .reindexed
    | true, false => .ok .unindexed
    | false, false => .ok .unchanged

end CountUpdate

namespace Ranking

/-- The entities that rank highest are the first of a listing, if a word of eight
bytes can count it. -/
def Shows {σ : Type} [ByteStore σ] (r : Ranking) (name : TreeName) (store : σ)
    (l : Listing r.settings.tieBreak) : Prop :=
  l.size < UInt64.size →
    ∀ n, ((r.top name.text n).on store).1 = .ok ((l.toList.take n).map Prod.snd)

/-- A store serves a run of updates as a listing has it. -/
def Follows {σ : Type} [ByteStore σ] (r : Ranking) (name : TreeName) :
    List CountUpdate → σ → Listing r.settings.tieBreak → Prop
  | [], store, l => r.Shows name store l
  | u :: us, store, l =>
      r.Shows name store l ∧
        ((u.serve r name).on store).1 = u.outcome name l ∧
        Follows r name us ((u.serve r name).on store).2 (u.apply l)

end Ranking

open ReliableStore (Sound contents)

variable {r : Ranking} {name : TreeName} {c : Contents} {l : Listing r.settings.tieBreak}

namespace CountUpdate

/-- Makes a node of the rank of the new count, if the entity is to be listed. -/
def enter (r : Ranking) (t : Tree) (u : CountUpdate) : Access Unit :=
  if u.lists then Ranking.insertNew t (r.settings.tieBreak.key u.newRank) u.entity else pure ()

/-- An update leaves a rank and then enters one. -/
theorem serve_eq (u : CountUpdate) :
    u.serve r name = (do
      let t := name.tree r.settings.tombstones
      let deleted ← t.deleteAt (u.oldRank.map r.settings.tieBreak.key)
      u.enter r t
      pure (Transition.of deleted u.lists)) := by
  obtain ⟨entity, newCount, oldCount, tieBreaker, remove⟩ := u
  rw [serve, Ranking.update, Ranking.withTree_text]
  unfold enter
  cases hlists : lists ⟨entity, newCount, oldCount, tieBreaker, remove⟩ <;>
    simp only [lists] at hlists <;> simp only [hlists] <;> cases oldCount <;> rfl

theorem deleteAt_lists (u : CountUpdate) {t : Tree} (h : t.Lists c l)
    (hreach : Avl.maxHeight ≤ t.reach) :
    ∃ puts,
      (t.deleteAt (u.oldRank.map r.settings.tieBreak.key)).eval c = (.ok (u.deletes l), puts) ∧
        t.Lists (c.write puts) (u.left l) := by
  rw [deletes, left]
  cases u.oldRank with
  | none => exact ⟨[], rfl, h⟩
  | some rank => exact h.delete hreach rank

/-- One update. -/
theorem serve_lists (u : CountUpdate) (hfits : Codec.Fits u.entity)
    (h : (name.tree r.settings.tombstones).Lists c l) :
    ∃ puts, (u.serve r name).eval c = (u.outcome name l, puts) ∧
      (name.tree r.settings.tombstones).Lists (c.write puts) (u.apply l) := by
  have hreach := name.maxHeight_le_reach r.settings.tombstones
  obtain ⟨puts, hdelete, hleft⟩ := u.deleteAt_lists h hreach
  rw [serve_eq, Access.eval_bind hdelete, apply, outcome, enter]
  cases hlists : u.lists with
  | false =>
      refine ⟨puts, ?_, hleft⟩
      rw [if_neg Bool.false_ne_true, if_neg fun h => Bool.false_ne_true h.1,
        Access.eval_bind (Access.eval_pure ..)]
      cases u.deletes l <;> simp [Transition.of]
  | true =>
      obtain ⟨puts', hinsert, hnew⟩ := hleft.insert hreach u.newRank hfits
      rw [← Contents.write_append] at hnew
      have henter := Ranking.insertNew_eval hinsert
      refine ⟨puts ++ puts', ?_, hnew⟩
      by_cases hmem : u.newRank ∈ u.left l
      · rw [Std.TreeMap.contains_iff_mem.mpr hmem] at henter
        rw [if_pos rfl, Access.eval_bind_error henter, if_pos ⟨rfl, hmem⟩]
        rfl
      · rw [Tree.contains_eq_false hmem] at henter
        rw [if_pos rfl, Access.eval_bind henter, if_neg fun h => hmem h.2]
        cases u.deletes l <;> simp [Transition.of]

end CountUpdate

namespace Ranking

/-- A listing shows in the store that holds its tree. -/
theorem shows_of_lists {σ : Type} [ByteStore σ] [ReliableStore σ] {store : σ}
    (hstore : Sound store) (h : (name.tree r.settings.tombstones).Lists (contents store) l) :
    r.Shows name store l := by
  intro hsize n
  rw [Access.on_fst _ hstore, top, withTree_text, h.top hsize]

/-- A run keeps what its first update left. -/
theorem follows_of_lists {σ : Type} [ByteStore σ] [ReliableStore σ] {us : List CountUpdate}
    {store : σ} (hstore : Sound store) (hfits : ∀ u ∈ us, Codec.Fits u.entity)
    (h : (name.tree r.settings.tombstones).Lists (contents store) l) :
    r.Follows name us store l := by
  induction us generalizing store l with
  | nil => exact shows_of_lists hstore h
  | cons u us ih =>
      obtain ⟨puts, heval, hlists⟩ := u.serve_lists (hfits u (.head _)) h
      obtain ⟨store', hon, hstore', hcontents, -⟩ := Access.on_eq_eval (u.serve r name) hstore
      rw [heval] at hon hcontents
      rw [← hcontents] at hlists
      refine ⟨shows_of_lists hstore h, ?_, ?_⟩
      · rw [hon]
      · rw [hon]
        exact ih hstore' (fun u hu => hfits u (.tail _ hu)) hlists

/-- A store that never fails serves every run of updates as a listing has it that is
empty at first, if the tree has no root at first. -/
theorem follows_of_fits {σ : Type} [ByteStore σ] [ReliableStore σ] (r : Ranking)
    (name : TreeName) {us : List CountUpdate} {store : σ} (hstore : Sound store)
    (hfresh : (name.tree r.settings.tombstones).PointsTo (contents store) none)
    (hfits : ∀ u ∈ us, Codec.Fits u.entity) : r.Follows name us store ∅ :=
  follows_of_lists hstore hfits (Tree.lists_empty hfresh)

/-- The third update deletes at its old rank and finds its new one taken. -/
theorem follows_of_fits_memory :
    Follows {} ⟨"t", by decide, by decide⟩
      [⟨"a", 2, none, 7, false⟩, ⟨"b", 1, none, 7, false⟩, ⟨"c", 2, some 1, 7, false⟩,
        ⟨"a", -1, some 2, 7, false⟩]
      ({} : MemoryStore) ∅ :=
  follows_of_fits {} _ trivial (.inl (by simp [contents])) (by decide)

end Ranking

end Leaderboard
