import Leaderboard.Proofs.Ranking.Cached
import Leaderboard.Proofs.Ranking.Listing
import Leaderboard.Proofs.Tree.Owned

/-!
# Trees that share a store

The trees of a store do not get in each other's way.  An operation of a ranking reads
and writes records of its tree only (`Ranking.within_serve`), and no record is of two
trees.  So in a run of operations on many trees those on one of them are replied as if
they were alone with a store of their own (`Ranking.trees_apart`).  The names of the
trees may begin alike, and the names of entities may hold anything.
-/

namespace Leaderboard

open ReliableStore (Sound contents)

namespace Ranking

/-- The name of the tree that an operation is on. -/
def Operation.tree : Operation → String
  | update tree .. => tree
  | reindex tree .. => tree
  | unindex tree _ => tree
  | top tree _ => tree
  | currentRank tree _ => tree
  | validate tree => tree

/-- A store key is one of the tree of a name, which is valid. -/
def OfTree (name : String) (key : Bytes) : Prop := ∃ t : TreeName, t.text = name ∧ t.Owns key

/-! ## The records of an operation -/

theorem within_withTree {α : Type} {r : Ranking} {name : String} {operation : Tree → Access α}
    (h : ∀ t : Tree, (operation t).Within t.name.Owns) :
    (r.withTree name operation).Within (OfTree name) := by
  rcases r.withTree_cases name operation with ⟨t, rfl, heq⟩ | ⟨failure, heq⟩
  · rw [heq]
    exact (h _).mono fun key hkey => ⟨t, rfl, hkey⟩
  · rw [heq]
    exact Access.within_throw _

section

variable (t : Tree)

theorem within_insertNew (key : RankKey) (entity : String) :
    (insertNew t key entity).Within t.name.Owns := by
  refine (t.within_insert key entity).bind fun inserted => ?_
  cases inserted with
  | true => exact Access.within_pure _
  | false => exact Access.within_throw _

theorem within_recorded (entity : String) : (recorded t entity).Within t.name.Owns := by
  refine (Access.within_get (t.name.owns_entityKey entity)).bind fun value => ?_
  split
  · exact Access.within_pure _
  · exact Access.within_pure _
  · exact (Tree.within_decoded _ _).map some

theorem within_forget (entity : String) (current : NodeRef) :
    (forget t entity current).Within t.name.Owns := by
  cases current with
  | none => exact Access.within_pure _
  | some key =>
      exact (t.within_delete key).bind fun _ =>
        (Access.within_put (t.name.owns_entityKey entity) _).bind fun _ => Access.within_pure _

end

theorem within_update (r : Ranking) (tree entity : String) (newCount : Int64)
    (oldCount : Option Int64) (tieBreaker : UInt64) (remove : Bool) :
    (r.update tree entity newCount oldCount tieBreaker remove).Within (OfTree tree) := by
  refine within_withTree fun t => ?_
  have hlast : ∀ deleted : Bool, (do
      let listed := !remove && decide (newCount > 0)
      if listed then insertNew t (r.rankKey newCount tieBreaker) entity
      pure (Transition.of deleted listed) : Access Transition).Within t.name.Owns := by
    intro deleted
    dsimp only
    split
    · exact (within_insertNew t _ _).bind fun _ => Access.within_pure _
    · exact Access.within_pure _
  cases oldCount with
  | none => exact hlast false
  | some count => exact (t.within_delete _).bind hlast

theorem within_reindex (r : Ranking) (tree entity : String) (newCount : Int64)
    (tieBreaker : UInt64) :
    (r.reindex tree entity newCount tieBreaker).Within (OfTree tree) := by
  refine within_withTree fun t => (within_recorded t entity).bind fun current => ?_
  have hlast : ∀ deleted : Bool, (do
      insertNew t (r.rankKey newCount tieBreaker) entity
      Access.put (t.name.entityKey entity) (r.rankKey newCount tieBreaker).encode
      pure (Transition.of deleted true) : Access Transition).Within t.name.Owns :=
    fun deleted => (within_insertNew t _ _).bind fun _ =>
      (Access.within_put (t.name.owns_entityKey entity) _).bind fun _ => Access.within_pure _
  split
  · exact within_forget t _ _
  · dsimp only
    split
    · exact Access.within_pure _
    · cases current with
      | none => exact hlast false
      | some old => exact (t.within_delete _).bind hlast

/-- An operation reads and writes records of its tree only. -/
theorem within_serve (r : Ranking) (op : Operation) : (r.serve op).Within (OfTree op.tree) := by
  cases op with
  | update tree entity newCount oldCount tieBreaker remove =>
      exact (r.within_update _ _ _ _ _ _).map _
  | reindex tree entity newCount tieBreaker => exact (r.within_reindex _ _ _ _).map _
  | unindex tree entity =>
      refine Access.Within.map (within_withTree fun t => ?_) _
      exact (within_recorded t entity).bind fun current => within_forget t entity current
  | top tree n => exact Access.Within.map (within_withTree fun t => t.within_top n) _
  | currentRank tree entity =>
      exact Access.Within.map (within_withTree fun t => within_recorded t entity) _
  | validate tree => exact Access.Within.map (within_withTree fun t => t.within_validate) _

/-! ## Runs -/

theorem serveEach_cons {σ : Type} [ByteStore σ] (r : Ranking) (op : Operation)
    (operations : List Operation) (s : σ) :
    r.serveEach (op :: operations) s =
      (((r.serve op).on s).1 :: (r.serveEach operations ((r.serve op).on s).2).1,
        (r.serveEach operations ((r.serve op).on s).2).2) := rfl

section

variable {σ τ : Type} [ByteStore σ] [ReliableStore σ] [ByteStore τ] [ReliableStore τ]
  (r : Ranking) {shared : σ} {own : τ} {name : TreeName}

/-- An operation changes records of its tree only. -/
theorem serve_frame (hshared : Sound shared) (op : Operation) :
    Sound ((r.serve op).on shared).2 ∧ ∀ key, ¬ OfTree op.tree key →
      contents ((r.serve op).on shared).2 key = contents shared key := by
  obtain ⟨after, hon, hafter, hcontents, -⟩ := (r.serve op).on_eq_eval hshared
  rw [hon, hcontents]
  exact ⟨hafter, fun key hkey => (r.within_serve op).write_eq _ hkey⟩

/-- On two stores with the same records of a tree an operation on it is replied the same, and
they have the same records of the tree after it. -/
theorem serve_alike (hshared : Sound shared) (hown : Sound own)
    (hsame : ∀ key, name.Owns key → contents own key = contents shared key) {op : Operation}
    (hop : op.tree = name.text) :
    ((r.serve op).on own).1 = ((r.serve op).on shared).1 ∧ Sound ((r.serve op).on own).2 ∧
      ∀ key, name.Owns key →
        contents ((r.serve op).on own).2 key = contents ((r.serve op).on shared).2 key := by
  obtain ⟨shared', hshared', -, hcontents, -⟩ := (r.serve op).on_eq_eval hshared
  obtain ⟨own', hown', hsound, hcontents', -⟩ := (r.serve op).on_eq_eval hown
  have hof : ∀ key, OfTree op.tree key → contents own key = contents shared key := by
    rintro key ⟨t, ht, hkey⟩
    have hrecord : name.Owns key := by
      rw [TreeName.Owns, ← hop, ← ht]
      exact hkey
    exact hsame key hrecord
  have heval := (r.within_serve op).eval_eq hof
  rw [heval] at hown' hcontents'
  rw [hown', hshared', hcontents, hcontents']
  exact ⟨rfl, hsound, fun key hkey => Contents.write_congr (hsame key hkey) _⟩

theorem sound_serveEach (hshared : Sound shared) (operations : List Operation) :
    Sound (r.serveEach operations shared).2 := by
  induction operations generalizing shared with
  | nil => exact hshared
  | cons op operations ih => exact ih (r.serve_frame hshared op).1

/-- The operations on one tree are replied as if they were alone. -/
theorem replies_alike (hshared : Sound shared) (hown : Sound own)
    (hsame : ∀ key, name.Owns key → contents own key = contents shared key)
    (operations : List Operation) :
    ((operations.zip (r.serveEach operations shared).1).filter
        (·.1.tree = name.text)).map Prod.snd =
      (r.serveEach (operations.filter (·.tree = name.text)) own).1 := by
  induction operations generalizing shared own with
  | nil => rfl
  | cons op operations ih =>
      obtain ⟨hafter, hframe⟩ := r.serve_frame hshared op
      rw [serveEach_cons, List.zip_cons_cons]
      by_cases hop : op.tree = name.text
      · obtain ⟨hreply, hown', hsame'⟩ := r.serve_alike hshared hown hsame hop
        simp only [List.filter_cons, hop, decide_true, if_true, List.map_cons]
        rw [serveEach_cons, hreply, ih hafter hown' hsame']
      · have hothers : ∀ key, name.Owns key →
            contents own key = contents ((r.serve op).on shared).2 key := by
          intro key hkey
          rw [hsame key hkey, hframe key]
          rintro ⟨t, ht, hkey'⟩
          exact hop (ht ▸ congrArg TreeName.text (hkey'.unique hkey))
        simp only [List.filter_cons, hop, decide_false, Bool.false_eq_true, if_false]
        exact ih hafter hown hothers

end

/-- In a run of operations on the trees of a store, those on one tree are replied the same as
alone on a store of their own, if at first that has the records of the tree.  And no operation
changes a record whose key does not begin with the name of its tree and a slash. -/
theorem trees_apart {σ τ : Type} [ByteStore σ] [ReliableStore σ] [ByteStore τ] [ReliableStore τ]
    (r : Ranking) {shared : σ} {own : τ} (hshared : Sound shared) (hown : Sound own)
    (name : TreeName) (hsame : ∀ key, name.Owns key → contents own key = contents shared key)
    (operations : List Operation) :
    ((operations.zip (r.serveEach operations shared).1).filter
        (·.1.tree = name.text)).map Prod.snd =
      (r.serveEach (operations.filter (·.tree = name.text)) own).1 ∧
    ∀ before op after, operations = before ++ op :: after →
      ∀ key, ¬ Bytes.ofString op.tree ++ [Address.slash] <+: key →
        contents ((r.serve op).on (r.serveEach before shared).2).2 key =
          contents (r.serveEach before shared).2 key := by
  refine ⟨r.replies_alike hshared hown hsame operations, ?_⟩
  intro before op after hrun key hkey
  have hbefore := r.sound_serveEach hshared before
  refine (r.serve_frame hbefore op).2 key fun hof => ?_
  obtain ⟨t, ht, howns⟩ := hof
  exact hkey (ht ▸ howns)

/-- Two trees, the name of one beginning with that of the other, and an entity whose name
looks like the end of a store key. -/
theorem trees_apart_memory :
    let r : Ranking := {}
    let operations : List Operation :=
      [.reindex "t" "t/root" 2 7, .reindex "tt" "a" 3 8, .update "t" "b" 2 none 9 false,
        .unindex "tt" "a", .top "t" 5, .currentRank "tt" "t/root", .validate "t"]
    let replies := (r.serveEach operations ({} : MemoryStore)).1
    ((operations.zip replies).filter (·.1.tree = "t")).map Prod.snd =
      (r.serveEach (operations.filter (·.tree = "t")) ({} : MemoryStore)).1 := by
  intro r operations replies
  let name : TreeName := ⟨"t", by decide, by decide⟩
  have hsound : Sound ({} : MemoryStore) := trivial
  exact (r.trees_apart hsound hsound name (fun _ _ => rfl) operations).1

end Ranking

end Leaderboard
