import Leaderboard.Proofs.Store.Recording
import Leaderboard.Proofs.Tree.Crossing
import Leaderboard.Proofs.Tree.Survival

/-!
# Stale records after an insert broke off

A tree that keeps no tombstones leaves the record of a node that it removes.  So each record
beside those of the tree is that of an entry that some delete removed (`Tree.Trails.onEach`),
and nothing points to it.

An insert writes its nodes in the order of their keys.  A node of a smaller key may point to the
new node before that is written.  If the insert breaks off in between (`Change.Exposes`) then the
pointer leads to the stale record at that key, and a search of the key can find the payload that
was deleted (`interrupted_insert_resurrects`).  Otherwise it finds nothing but what is inserted
(`interrupted_insert_exposes_removed`).
-/

namespace Leaderboard

open ReliableStore (Sound contents)
open Session (flushPuts)

namespace Change

/-- A change that breaks off after some puts has written a node of a smaller key with a pointer to
its own key, and not the node at that key. -/
def Exposes (change : Change) (t : Tree) (c : Contents) (puts : Nat) : Prop :=
  let written := ((change.serve t).eval c).2.take puts
  ∃ u n, u < change.key ∧ Node.right n = some change.key ∧ (t.name.nodeKey u, n.encode) ∈ written ∧
    ∀ record, (t.name.nodeKey change.key, record) ∉ written

/-- One of some changes removes an entry that a search found before it. -/
def Removes {σ : Type} [ByteStore σ] (t : Tree) (changes : List Change) (store : σ)
    (e : Placement) : Prop :=
  ∃ before after, changes = before ++ .delete e.1 :: after ∧
    ((t.search e.1).on (Access.onEach (before.map (Change.serve t)) store).2).1 = .ok (some e.2)

variable {σ : Type} [ByteStore σ] {t : Tree} {changes : List Change} {store : σ} {e : Placement}

theorem Removes.head (h : ((t.search e.1).on store).1 = .ok (some e.2)) :
    Removes t (.delete e.1 :: changes) store e :=
  ⟨[], changes, rfl, h⟩

theorem Removes.cons {change : Change}
    (h : Removes t changes ((change.serve t).on store).2 e) :
    Removes t (change :: changes) store e := by
  obtain ⟨before, after, rfl, hfound⟩ := h
  exact ⟨change :: before, after, rfl, hfound⟩

end Change

namespace Tree

variable {t : Tree} {c : Contents} {x x' : Avl} {gone : Placement → Prop}

/-! ## Records beside the tree -/

/-- The contents hold a tree, and the other records of nodes are those of some entries. -/
structure Trails (t : Tree) (c : Contents) (x : Avl) (gone : Placement → Prop) : Prop where
  /-- The records spell the tree. -/
  holds : t.Holds c x
  /-- A node beside the tree has the payload of an entry that is gone. -/
  stale : ∀ k ∉ x.keys, ∀ n, t.stored c k = some n → gone (k, n.payload)

/-- What is stored beside the tree that a flush writes was stored before. -/
theorem stored_of_stored_flush {s : Session} (hs : t.Regrown c x' s) {ref ref' : NodeRef}
    {k : RankKey} (hk : k ∉ x'.keys) {n : Node}
    (hn : t.stored (c.write (flushPuts t s ref ref')) k = some n) : t.stored c k = some n := by
  rw [← List.take_length (l := flushPuts t s ref ref')] at hn
  exact (stored_take_flush hs.sound _ _ _ hn).resolve_right fun hd => hk (hs.mem_keys k hd.1)

/-- A change leaves no records beside the tree but the ones that were there and that of the entry
it deletes. -/
theorem Trails.serve (h : t.Trails c x gone) (hreach : Avl.maxHeight ≤ t.reach) {change : Change}
    (hfits : change.Fits) :
    ∃ x', t.Trails (c.write ((change.serve t).eval c).2) x' fun e =>
      gone e ∨ change = .delete e.1 ∧ (t.search e.1).eval c = (.ok (some e.2), []) := by
  have hsame : t.Trails (c.write []) x fun e =>
      gone e ∨ change = .delete e.1 ∧ (t.search e.1).eval c = (.ok (some e.2), []) :=
    ⟨h.holds, fun k hk n hn => .inl (h.stale k hk n hn)⟩
  rcases h.holds.valid_or with hvalid | ⟨failure, hroot⟩
  · cases hx : change.grow x with
    | none =>
        rw [Change.serve_eval_of_none hvalid hreach hx]
        exact ⟨x, hsame⟩
    | some x' =>
        obtain ⟨s, heval, hs, -, hholds⟩ := Change.session_holds hvalid hreach hfits hx
        rw [heval]
        refine ⟨x', hholds, fun k hk n hn => ?_⟩
        have hold := stored_of_stored_flush hs hk hn
        by_cases hkx : k ∈ x.keys
        · refine .inr ⟨Change.eq_delete h.holds.ordered h.holds.balanced hx hkx hk, ?_⟩
          rw [search_eval hvalid hreach, (Avl.lookup_eq_some h.holds.ordered).mpr
            (h.holds.stands.mem_entries hkx hold)]
        · exact .inl (h.stale k hkx n hold)
  · rw [change.serve_eval_of_error hroot]
    exact ⟨x, hsame⟩

/-- So do changes, one after the other. -/
theorem Trails.onEach {σ : Type} [ByteStore σ] [ReliableStore σ]
    (hreach : Avl.maxHeight ≤ t.reach) {changes : List Change}
    (hfits : ∀ change ∈ changes, change.Fits) {store : σ} (hstore : Sound store)
    (h : t.Trails (contents store) x gone) :
    Sound (Access.onEach (changes.map (Change.serve t)) store).2 ∧
      ∃ x', t.Trails (contents (Access.onEach (changes.map (Change.serve t)) store).2) x'
        fun e => gone e ∨ Change.Removes t changes store e := by
  induction changes generalizing store x gone with
  | nil => exact ⟨hstore, x, h.holds, fun k hk n hn => .inl (h.stale k hk n hn)⟩
  | cons change changes ih =>
      obtain ⟨store', hon, hstore', hcontents, -⟩ := (change.serve t).on_eq_eval hstore
      obtain ⟨x', h'⟩ := h.serve hreach (hfits change (.head _))
      rw [← hcontents] at h'
      obtain ⟨hafter, x'', h''⟩ :=
        ih (fun change hchange => hfits change (.tail _ hchange)) hstore' h'
      simp only [List.map_cons, Access.onEach, hon]
      refine ⟨hafter, x'', h''.holds, fun k hk n hn => ?_⟩
      rcases h''.stale k hk n hn with (hgone | ⟨rfl, hfound⟩) | hremoved
      · exact .inl hgone
      · refine .inr (.head ?_)
        rw [Access.on_fst _ hstore, hfound]
      · exact .inr (.cons (hon ▸ hremoved))

/-! ## How a search comes to a key -/

/-- A search that goes down among other nodes and finds its key starts there, or comes there from
one of the others. -/
theorem searchFrom_link {key : RankKey} {K : RankKey → Prop} (hkey : ¬ K key)
    (hclosed : ∀ k n side j, K k → t.stored c k = some n → n.child side = some j → K j ∨ j = key)
    {fuel : Nat} {ref : NodeRef} (href : ∀ k ∈ ref, K k ∨ k = key) {p : String}
    {puts : List (Bytes × Bytes)}
    (h : (t.searchFrom key fuel ref).eval c = (.ok (some p), puts)) :
    ref = some key ∨ ∃ k n side, K k ∧ t.stored c k = some n ∧ key.turn k = some side ∧
      n.child side = some key := by
  induction fuel generalizing ref with
  | zero => cases ref <;> cases h
  | succ fuel ih =>
      cases ref with
      | none => cases h
      | some here =>
          rcases href here rfl with hhere | rfl
          · rw [searchFrom] at h
            rcases load_cases t c here with ⟨n, hn, hload⟩ | ⟨-, failure, -, hload⟩
            · rw [Access.eval_bind_read hload] at h
              have hchild := fun side j => hclosed here n side j hhere hn
              cases hc : compare key here with
              | eq => exact absurd (Std.LawfulEqOrd.eq_of_compare hc ▸ hhere) hkey
              | lt =>
                  rw [hc] at h
                  rcases ih (hchild .left) h with hlink | hlink
                  · exact .inr ⟨here, n, .left, hhere, hn, by rw [RankKey.turn, hc], hlink⟩
                  · exact .inr hlink
              | gt =>
                  rw [hc] at h
                  rcases ih (hchild .right) h with hlink | hlink
                  · exact .inr ⟨here, n, .right, hhere, hn, by rw [RankKey.turn, hc], hlink⟩
                  · exact .inr hlink
            · rw [Access.eval_bind_error hload] at h
              cases h
          · exact .inl rfl

/-- A search that finds its key finds it on top, or comes there from a node above it. -/
theorem search_link {key : RankKey} {K : RankKey → Prop} (hkey : ¬ K key)
    (hclosed : ∀ k n side j, K k → t.stored c k = some n → n.child side = some j → K j ∨ j = key)
    (hroot : ∀ k, t.PointsTo c (some k) → K k ∨ k = key) {p : String}
    {puts : List (Bytes × Bytes)} (h : (t.search key).eval c = (.ok (some p), puts)) :
    t.PointsTo c (some key) ∨ ∃ k n side, K k ∧ t.stored c k = some n ∧
      key.turn k = some side ∧ n.child side = some key := by
  rcases root_cases t c with ⟨ref, hpoints, -, hread⟩ | ⟨failure, -, hread⟩
  · rw [search, Access.eval_bind_read hread] at h
    have href : ∀ k ∈ ref, K k ∨ k = key := by
      rintro k rfl
      exact hroot k hpoints
    refine (searchFrom_link hkey hclosed href h).imp_left fun heq => ?_
    rw [← heq]
    exact hpoints
  · rw [search, Access.eval_bind_error hread] at h
    cases h

/-! ## Inserts that break off -/

section

variable {s : Session} {key : RankKey} {payload : String}

/-- The node that the session of an insert sees at the key has the payload. -/
theorem payload_of_sees (h : t.Valid c x) (hs : t.Regrown c x' s)
    (hx : x.insert key payload = some x') {n : Node} (hn : s.sees t c key = some n) :
    n.payload = payload := by
  obtain ⟨hnew, hentries⟩ := Avl.mem_insert h.1.ordered h.1.balanced hx
  have hkey := (Avl.mem_keys_insert h.1.ordered h.1.balanced hx key).mpr (.inl rfl)
  rcases (hentries _).mp (hs.stands.mem_entries hkey hn) with heq | hold
  · exact (Prod.mk.inj heq).2
  · exact absurd (Avl.mem_keys_of_mem hold) hnew

/-- After the first puts of an insert the old nodes point to old nodes and to the new one. -/
theorem child_take_insert (h : t.Valid c x) (hs : t.Regrown c x' s)
    (hx : x.insert key payload = some x') {count : Nat} {k j : RankKey} {n : Node} {side : Side}
    (hk : k ∈ x.keys)
    (hn : t.stored (c.write ((flushPuts t s x.root x'.root).take count)) k = some n)
    (hj : n.child side = some j) : j ∈ x.keys ∨ j = key := by
  rcases stored_take_flush hs.sound _ _ _ hn with hn | ⟨hd, hn⟩
  · exact .inl (h.1.stands.links.child_mem_keys hk hn hj)
  · have hj' := hs.stands.links.child_mem_keys (hs.mem_keys k hd) hn hj
    exact ((Avl.mem_keys_insert h.1.ordered h.1.balanced hx j).mp hj').symm

/-- A search that finds the key of an insert before its node is written comes there from a node of
a smaller key, which is written. -/
theorem link_take_insert (h : t.Valid c x) (hs : t.Regrown c x' s)
    (hx : x.insert key payload = some x') (hremoved : s.removed = []) {count : Nat}
    (hdirty : key ∈ s.dirty) (hunwritten : key ∉ s.dirty.take count) {p : String}
    {puts : List (Bytes × Bytes)}
    (hsearch : (t.search key).eval (c.write ((flushPuts t s x.root x'.root).take count)) =
      (.ok (some p), puts)) :
    ∃ u ∈ s.dirty.take count, ∃ n, s.sees t c u = some n ∧ u < key ∧ n.right = some key := by
  obtain ⟨hnew, -⟩ := Avl.mem_insert h.1.ordered h.1.balanced hx
  have hroot : ∀ k, t.PointsTo (c.write ((flushPuts t s x.root x'.root).take count)) (some k) →
      k ∈ x.keys ∨ k = key := by
    intro k hk
    rcases pointsTo_take_flush h.1.points count hk with hk | hk
    · exact .inl (Avl.root_mem_keys hk.symm)
    · exact ((Avl.mem_keys_insert h.1.ordered h.1.balanced hx k).mp
        (Avl.root_mem_keys hk.symm)).symm
  rcases search_link hnew (fun k n side j => child_take_insert h hs hx) hroot hsearch with
    hpoints | ⟨u, n, side, hu, hn, hturn, hchild⟩
  · -- the root is written last
    have hall := take_dirty_of_pointsTo hs.sound h.1.points hpoints fun heq =>
      hnew (Avl.root_mem_keys heq.symm)
    rw [hall] at hunwritten
    exact absurd hdirty hunwritten
  · rw [stored_take_of_notMem_removed hs.sound _ _ _ (by simp [hremoved])] at hn
    by_cases hwritten : u ∈ s.dirty.take count
    · rw [if_pos hwritten] at hn
      refine ⟨u, hwritten, n, hn, ?_⟩
      cases side with
      | left =>
          -- nodes below one that is written are written
          have hlow := ((mem_take_dirty hs).mp hwritten).2
          refine absurd ((mem_take_dirty hs).mpr ⟨hdirty, fun v hv => ?_⟩) hunwritten
          exact RankKey.lt_trans (RankKey.turn_eq_left.mp hturn) (hlow v hv)
      | right => exact ⟨RankKey.turn_eq_right.mp hturn, hchild⟩
    · rw [if_neg hwritten] at hn
      exact absurd (h.1.stands.links.child_mem_keys hu hn hchild) hnew

/-- After the first puts of an insert a search of the key finds the payload, or else the node that
was stored there before.  In that case the new node is not written, but one of a smaller key is
that points to it. -/
theorem search_take_insert (h : t.Valid c x) (hs : t.Regrown c x' s)
    (hx : x.insert key payload = some x') (hremoved : s.removed = []) {count : Nat} {p : String}
    {puts : List (Bytes × Bytes)}
    (hsearch : (t.search key).eval (c.write ((flushPuts t s x.root x'.root).take count)) =
      (.ok (some p), puts)) :
    p = payload ∨ t.Stores c (key, p) ∧ key ∉ s.dirty.take count ∧
      ∃ u ∈ s.dirty.take count, ∃ n, s.sees t c u = some n ∧ u < key ∧ n.right = some key := by
  obtain ⟨m, hm, rfl⟩ := search_stored hsearch
  rw [stored_take_of_notMem_removed hs.sound _ _ _ (by simp [hremoved])] at hm
  by_cases hwritten : key ∈ s.dirty.take count
  · rw [if_pos hwritten] at hm
    exact .inl (payload_of_sees h hs hx hm)
  · rw [if_neg hwritten] at hm
    by_cases hdirty : key ∈ s.dirty
    · exact .inr ⟨⟨m, hm, rfl⟩, hwritten, link_take_insert h hs hx hremoved hdirty hwritten hsearch⟩
    · rw [← sees_of_notMem_dirty hs.sound hdirty] at hm
      exact .inl (payload_of_sees h hs hx hm)

/-- An insert exposes its key if a written node of a smaller key points to it, and its own node is
not written. -/
theorem exposes_of_link (hs : s.Sound t c) (hremoved : s.removed = []) {ref ref' : NodeRef}
    (heval : ((Change.insert key payload).serve t).eval c = (.ok true, flushPuts t s ref ref'))
    {count : Nat} (hunwritten : key ∉ s.dirty.take count) {u : RankKey} {n : Node}
    (hu : u ∈ s.dirty.take count) (hn : s.sees t c u = some n) (hlt : u < key)
    (hright : n.right = some key) : (Change.insert key payload).Exposes t c count := by
  have hputs := fun k record => mem_take_flush hs ref ref' count (k := k) (r := record)
    (by simp [hremoved])
  refine ⟨u, n, hlt, hright, ?_, fun record hrecord => ?_⟩
  · rw [heval]
    exact (hputs u _).mpr ⟨hu, n, hn, rfl⟩
  · rw [heval] at hrecord
    exact hunwritten ((hputs key record).mp hrecord).1

end

end Tree

/-- After an insert of an absent key broke off, in a store without tombstones, a search of the
key finds nothing, the payload that was inserted, or one that an earlier delete removed there.
It finds the latter only if the insert has written a node of a smaller key with a pointer to the
key, and not the node at the key. -/
theorem interrupted_insert_exposes_removed {σ : Type} [ByteStore σ] [ReliableStore σ]
    (name : TreeName) {store : σ} (hstore : Sound store)
    (hroot : (name.tree false).PointsTo (contents store) none)
    (hnodes : ∀ k, (name.tree false).stored (contents store) k = none) {changes : List Change}
    (hchanges : ∀ change ∈ changes, change.Fits) (key : RankKey) (payload : String)
    (hfits : Codec.Fits payload) (puts : Nat) :
    let t := name.tree false
    let held := (Access.onEach (changes.map (Change.serve t)) store).2
    let torn := ((Change.insert key payload).serve t).interrupted puts held
    ((t.search key).on held).1 = .ok none → ∀ p, ((t.search key).on torn).1 = .ok (some p) →
      p = payload ∨ (Change.insert key payload).Exposes t (contents held) puts ∧
        Change.Removes t changes store (key, p) := by
  intro t held torn habsent p hfound
  have hreach := name.maxHeight_le_reach false
  have hempty : t.Trails (contents store) .nil fun _ => False := by
    refine ⟨Tree.holds_nil hroot, fun k _ n hn => ?_⟩
    rw [hnodes k] at hn
    cases hn
  obtain ⟨hheld, x, hx⟩ := hempty.onEach hreach hchanges hstore
  obtain ⟨htorn, hcontents⟩ :=
    Access.interrupted_eq ((Change.insert key payload).givesUp_serve t) hheld puts
  rw [Access.on_fst _ htorn, hcontents] at hfound
  rw [Access.on_fst _ hheld] at habsent
  have hvalid : t.Valid (contents held) x := by
    refine hx.holds.valid_or.resolve_right ?_
    rintro ⟨failure, hunread⟩
    rw [Tree.search, Access.eval_bind_error hunread] at habsent
    cases habsent
  cases hins : x.insert key payload with
  | none =>
      rw [(Change.insert key payload).serve_eval_of_none hvalid hreach hins, List.take_nil,
        Contents.write_nil, habsent] at hfound
      cases hfound
  | some x' =>
      obtain ⟨s, heval, hs, hremoved⟩ :=
        (Change.insert key payload).session hvalid hreach hfits hins
      obtain ⟨hnew, -⟩ := Avl.mem_insert hx.holds.ordered hx.holds.balanced hins
      rw [heval] at hfound
      refine (Tree.search_take_insert hvalid hs hins hremoved (Prod.ext hfound rfl)).imp_right ?_
      rintro ⟨⟨m, hm, hp⟩, hunwritten, u, hu, n, hn, hlt, hright⟩
      refine ⟨Tree.exposes_of_link hs.sound hremoved heval hunwritten hu hn hlt hright, ?_⟩
      have hgone := (hx.stale key hnew m hm).resolve_left id
      rw [show m.payload = p from hp] at hgone
      exact hgone

/-! ## A deleted payload found again -/

namespace Exposed

/-- The key of a count. -/
def key (count : Int64) : RankKey := .make count 0 .newerFirst

/-- Two inserts, and the delete of the second node. -/
def changes : List Change :=
  [.insert (key 1) "a", .insert (key 2) "b", .delete (key 2)]

/-- A store without tombstones after them. -/
def held : MemoryStore :=
  (Access.onEach (changes.map (Change.serve (TreeName.t.tree false))) {}).2

/-- What another insert of the second node leaves if it breaks off after the first one. -/
def torn : MemoryStore :=
  ((Change.insert (key 2) "c").serve (TreeName.t.tree false)).interrupted 1 held

/-- The second node is gone. -/
theorem search_held : (((TreeName.t.tree false).search (key 2)).on held).1 = .ok none := by
  decide +kernel

/-- The first node points to the record that the delete has left. -/
theorem search_torn :
    (((TreeName.t.tree false).search (key 2)).on torn).1 = .ok (some "b") := by
  decide +kernel

end Exposed

/-- Without tombstones an insert of an absent key that breaks off can give back the payload that
a delete removed there: all changes before have been made, and a search then finds neither
nothing nor the new payload.  An audit passes. -/
theorem interrupted_insert_resurrects :
    let t := TreeName.t.tree false
    let torn := ((Change.insert (Exposed.key 2) "c").serve t).interrupted 1 Exposed.held
    (∀ change ∈ Exposed.changes, change.Representable) ∧
      (Access.onEach (Exposed.changes.map (Change.serve t)) ({} : MemoryStore)).1 =
        [.ok true, .ok true, .ok true] ∧
      ((t.search (Exposed.key 2)).on Exposed.held).1 = .ok none ∧
      ((t.search (Exposed.key 2)).on torn).1 = .ok (some "b") ∧
      (t.validate.on torn).1 = .ok { nodes := 2, height := 2 } := by
  refine ⟨?_, ?_, Exposed.search_held, Exposed.search_torn, ?_⟩ <;> decide +kernel

/-- That payload is one that was deleted, and the first node points to its record. -/
theorem interrupted_insert_exposes_removed_memory :
    (Change.insert (Exposed.key 2) "c").Exposes (TreeName.t.tree false) (contents Exposed.held) 1 ∧
      Change.Removes (TreeName.t.tree false) Exposed.changes ({} : MemoryStore)
        (Exposed.key 2, "b") := by
  have hfits : ∀ change ∈ Exposed.changes, change.Fits := fun change hchange =>
    Change.Representable.fits ((by decide +kernel : ∀ change ∈ Exposed.changes,
      change.Representable) change hchange)
  have h := interrupted_insert_exposes_removed (σ := MemoryStore) .t trivial
    (.inl (by simp [contents])) (fun k => by simp [Tree.stored, contents]) hfits (Exposed.key 2) "c"
    (by decide) 1 Exposed.search_held "b" Exposed.search_torn
  rw [Exposed.held]
  exact h.resolve_left (by decide)

end Leaderboard
