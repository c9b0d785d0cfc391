import Leaderboard.Proofs.Store.Recording
import Leaderboard.Proofs.Tree.Run
import Leaderboard.Proofs.Tree.Torn

/-!
# Stale records

A tree without tombstones leaves the records of removed nodes as they are, and their
keys may be inserted again over them.  Nothing of that is seen while the store does not
fail: such a tree answers every run of calls as one with tombstones does
(`stale_records_unseen`).

The two stores drift apart, but they hold the same tree (`Twins`), since a change makes
the same of it and marks the same nodes.  What is read is reached from the root, so it
is a node of that tree.  A walk may fail in a tree that is too high for it, and then it
does in both stores (`WalkM.Alike`).
-/

namespace Leaderboard

open ReliableStore (Sound contents)
open Session (nodePuts rootPuts tombstonePuts flushPuts)

/-! ## Calls -/

/-- A call of a tree. -/
inductive Call where
  /-- To insert or delete. -/
  | change (change : Change)
  /-- For the payload at a key. -/
  | search (key : RankKey)
  /-- For the pointer to the root. -/
  | root
  /-- For all entries. -/
  | entries
  /-- For some entries with the largest keys. -/
  | topEntries (n : Nat)
  /-- For an audit. -/
  | validate
deriving DecidableEq, Repr

/-- What a call gives. -/
inductive CallResult where
  /-- Whether something was inserted or deleted. -/
  | changed (done : Bool)
  /-- The payload that was found, if any. -/
  | found (payload : Option String)
  /-- The pointer to the root. -/
  | pointer (ref : NodeRef)
  /-- Entries. -/
  | listed (entries : List Placement)
  /-- What an audit found. -/
  | audited (stats : TreeStats)
deriving DecidableEq, Repr

namespace Call

/-- Serves a call from the records of a tree. -/
def serve (t : Tree) : Call → Access CallResult
  | change ch => .changed <$> ch.serve t
  | search key => .found <$> t.search key
  | root => .pointer <$> t.root
  | entries => .listed <$> t.entries
  | topEntries n => .listed <$> t.topEntries n
  | validate => .audited <$> t.validate

/-- What a call inserts fits in a record. -/
def Fits : Call → Prop
  | change ch => ch.Fits
  | search _ | root | entries | topEntries _ | validate => True

instance : DecidablePred Fits
  | change ch => inferInstanceAs (Decidable ch.Fits)
  | search _ | root | entries | topEntries _ | validate => inferInstanceAs (Decidable True)

/-- The results of calls, one after the other, and the store after them. -/
def serveEach {σ : Type} [ByteStore σ] (t : Tree) (calls : List Call) (store : σ) :
    List (Except Failure CallResult) × σ :=
  Access.onEach (calls.map (serve t)) store

theorem serveEach_cons {σ : Type} [ByteStore σ] {t : Tree} {call : Call} {store store' : σ}
    {reply : Except Failure CallResult} (h : (call.serve t).on store = (reply, store'))
    (calls : List Call) :
    serveEach t (call :: calls) store =
      (reply :: (serveEach t calls store').1, (serveEach t calls store').2) := by
  simp only [serveEach, List.map_cons, Access.onEach, h]

end Call

/-! ## One tree in two stores -/

/-- Two memories that spell a tree agree on its keys. -/
theorem Avl.Stands.agree {m m' : Memory} {x : Avl} (h : x.Stands m) (h' : x.Stands m')
    {k : RankKey} (hk : k ∈ x.keys) : m k = m' k := by
  induction x with
  | nil => cases hk
  | node l j p r ihl ihr =>
      obtain ⟨⟨height, hj, hheight⟩, hl, hr⟩ := h
      obtain ⟨⟨height', hj', hheight'⟩, hl', hr'⟩ := h'
      rw [keys_node, List.mem_append, List.mem_cons] at hk
      rcases hk with hk | rfl | hk
      · exact ihl hl hl' hk
      · have hsame : height = height' := UInt32.toNat_inj.mp (hheight.trans hheight'.symm)
        rw [hj, hj', hsame]
      · exact ihr hr hr' hk

/-- The contents of two stores hold one tree, the first with tombstones. -/
structure Twins (name : TreeName) (c c' : Contents) (x : Avl) : Prop where
  /-- The store of the tree with tombstones. -/
  kept : (name.tree true).Holds c x
  /-- The store of the tree without them. -/
  bare : (name.tree false).Holds c' x

/-- Two operations, each on its contents, put nothing and are replied the same. -/
def Access.Alike {α : Type} (c c' : Contents) (access access' : Access α) : Prop :=
  ∃ reply, access.eval c = (reply, []) ∧ access'.eval c' = (reply, [])

theorem Access.Alike.map {α β : Type} {c c' : Contents} {access access' : Access α}
    (h : Alike c c' access access') (f : α → β) : Alike c c' (f <$> access) (f <$> access') := by
  obtain ⟨reply, heval, heval'⟩ := h
  rw [map_eq_pure_bind, map_eq_pure_bind]
  cases reply with
  | ok a => exact ⟨.ok (f a), eval_bind_read heval _, eval_bind_read heval' _⟩
  | error failure => exact ⟨_, eval_bind_error heval _, eval_bind_error heval' _⟩

namespace Twins

variable {name : TreeName} {c c' : Contents} {x : Avl}

/-- The pointer to the root is read in both stores, or in none for the same reason. -/
theorem root_cases (h : Twins name c c' x) :
    ((name.tree true).Valid c x ∧ (name.tree false).Valid c' x) ∨
      ∃ failure, (name.tree true).root.eval c = (.error failure, []) ∧
        (name.tree false).root.eval c' = (.error failure, []) := by
  by_cases hmade : ∀ k ∈ x.root, k.Made
  · exact .inl ⟨⟨h.kept, hmade⟩, ⟨h.bare, hmade⟩⟩
  · push Not at hmade
    obtain ⟨k, hk, hmade⟩ := hmade
    have hkept := h.kept.points
    have hbare := h.bare.points
    rw [hk] at hkept hbare
    exact .inr ⟨_, Tree.root_eval_of_not_made hkept hmade, Tree.root_eval_of_not_made hbare hmade⟩

theorem root (h : Twins name c c' x) :
    ∃ reply, (name.tree true).root.eval c = (reply, []) ∧
      (name.tree false).root.eval c' = (reply, []) ∧ ∀ ref, reply = .ok ref → ref = x.root := by
  rcases h.root_cases with ⟨hkept, hbare⟩ | ⟨failure, hkept, hbare⟩
  · refine ⟨_, Tree.root_eval hkept.1.points hkept.2, Tree.root_eval hbare.1.points hbare.2, ?_⟩
    rintro ref ⟨⟩
    rfl
  · exact ⟨_, hkept, hbare, fun ref href => by cases href⟩

/-- A node of the tree is read in both stores, and its children are nodes of the tree. -/
theorem load (h : Twins name c c' x) {key : RankKey} (hkey : key ∈ x.keys) :
    ∃ node, ((name.tree true).load key).eval c = (.ok node, []) ∧
      ((name.tree false).load key).eval c' = (.ok node, []) ∧
      ∀ side, ∀ k ∈ node.child side, k ∈ x.keys := by
  have hlinks := h.kept.stands.links
  obtain ⟨node, hnode⟩ := hlinks.isSome hkey
  have hnode' := hnode
  rw [h.kept.stands.agree h.bare.stands hkey] at hnode'
  exact ⟨node, Tree.load_eval hnode, Tree.load_eval hnode', fun side k hk =>
    hlinks.child_mem_keys hkey hnode hk⟩

theorem search (h : Twins name c c' x) (key : RankKey) :
    Access.Alike c c' ((name.tree true).search key) ((name.tree false).search key) := by
  rcases h.root_cases with ⟨hkept, hbare⟩ | ⟨failure, hkept, hbare⟩
  · exact ⟨_, Tree.search_eval hkept (name.maxHeight_le_reach true) key,
      Tree.search_eval hbare (name.maxHeight_le_reach false) key⟩
  · exact ⟨_, Access.eval_bind_error hkept _, Access.eval_bind_error hbare _⟩

theorem validate (h : Twins name c c' x) :
    Access.Alike c c' (name.tree true).validate (name.tree false).validate := by
  rcases h.root_cases with ⟨hkept, hbare⟩ | ⟨failure, hkept, hbare⟩
  · exact ⟨_, Tree.validate_eval hkept, Tree.validate_eval hbare⟩
  · exact ⟨_, Access.eval_bind_error hkept _, Access.eval_bind_error hbare _⟩

end Twins

/-! ## Walks through the tree of two stores -/

/-- Two actions of a walk, each on its contents, put nothing, take a walk to the same walk and
give the same.  They keep what holds of the walk, and their answers have some property. -/
def WalkM.Alike {α : Type} (c c' : Contents) (I : Walk → Prop) (Q : α → Prop)
    (m m' : WalkM α) : Prop :=
  ∀ w, I w → ∃ reply w', Dialogue.eval (m.run.run w) c = ((reply, w'), []) ∧
    Dialogue.eval (m'.run.run w) c' = ((reply, w'), []) ∧ I w' ∧ ∀ a, reply = .ok a → Q a

namespace WalkM

variable {α β : Type} {c c' : Contents} {I : Walk → Prop} {Q : α → Prop} {R : β → Prop}

theorem alike_pure {a : α} (h : Q a) : Alike c c' I Q (pure a) (pure a) := by
  refine fun w hw => ⟨_, w, rfl, rfl, hw, ?_⟩
  rintro _ ⟨⟩
  exact h

theorem alike_throw (failure : Failure) : Alike c c' I Q (throw failure) (throw failure) :=
  fun w hw => ⟨_, w, rfl, rfl, hw, fun a ha => by cases ha⟩

theorem alike_get : Alike c c' I I get get := by
  refine fun w hw => ⟨_, w, rfl, rfl, hw, ?_⟩
  rintro _ ⟨⟩
  exact hw

theorem alike_set {w : Walk} (h : I w) : Alike c c' I (fun _ => True) (set w) (set w) :=
  fun _ _ => ⟨_, w, rfl, rfl, h, fun _ _ => trivial⟩

theorem alike_modify {f : Walk → Walk} (h : ∀ w, I w → I (f w)) :
    Alike c c' I (fun _ => True) (modify f) (modify f) :=
  fun w hw => ⟨_, f w, rfl, rfl, h w hw, fun _ _ => trivial⟩

theorem Alike.bind {m m' : WalkM α} {f f' : α → WalkM β} (h : Alike c c' I Q m m')
    (hf : ∀ a, Q a → Alike c c' I R (f a) (f' a)) : Alike c c' I R (m >>= f) (m' >>= f') := by
  intro w hw
  obtain ⟨reply, w', heval, heval', hw', hQ⟩ := h w hw
  rw [run_bind, run_bind, Dialogue.eval_bind, Dialogue.eval_bind, heval, heval']
  cases reply with
  | ok a => exact hf a (hQ a rfl) w' hw'
  | error failure => exact ⟨.error failure, w', rfl, rfl, hw', fun b hb => by cases hb⟩

theorem Alike.map {m m' : WalkM α} (h : Alike c c' I Q m m') (f : α → β) :
    Alike c c' I (fun _ => True) (f <$> m) (f <$> m') := by
  rw [map_eq_pure_bind, map_eq_pure_bind]
  exact h.bind fun a _ => alike_pure trivial

theorem alike_ask {access access' : Access α} {reply : Except Failure α}
    (h : access.eval c = (reply, [])) (h' : access'.eval c' = (reply, []))
    (hQ : ∀ a, reply = .ok a → Q a) : Alike c c' I Q (Walk.ask access) (Walk.ask access') := by
  intro w hw
  rw [Access.eval] at h h'
  refine ⟨reply, w, ?_, ?_, hw, hQ⟩
  · rw [Walk.run_ask, Dialogue.eval_bind, h]
    rfl
  · rw [Walk.run_ask, Dialogue.eval_bind, h']
    rfl

end WalkM

namespace Walk

open WalkM

/-- The pointers that a walk will follow lead to keys of a tree. -/
def Onto (x : Avl) (w : Walk) : Prop :=
  (∀ k ∈ w.cursor, k ∈ x.keys) ∧ ∀ e ∈ w.stack, ∀ side, ∀ k ∈ e.2.child side, k ∈ x.keys

variable {name : TreeName} {c c' : Contents} {x : Avl}

theorem alike_start (h : Twins name c c' x) :
    Alike c c' (Onto x) (fun _ => True) (start (name.tree true)) (start (name.tree false)) := by
  refine alike_get.bind fun w _ => ?_
  obtain ⟨reply, hkept, hbare, hroot⟩ := h.root
  split
  · refine (alike_ask hkept hbare hroot).bind fun ref href => alike_modify fun w hw => ?_
    subst href
    exact ⟨fun k hk => Avl.root_mem_keys hk, hw.2⟩
  · exact alike_pure trivial

theorem alike_descend (h : Twins name c c' x) (n : Nat) :
    Alike c c' (Onto x) (fun _ => True) (descend (name.tree true) n)
      (descend (name.tree false) n) := by
  induction n with
  | zero =>
      rw [descend, descend]
      refine alike_get.bind fun w _ => ?_
      split
      · exact alike_pure trivial
      · exact alike_throw _
  | succ n ih =>
      rw [descend, descend]
      refine alike_get.bind fun w hw => ?_
      split
      next => exact alike_pure trivial
      next key hkey =>
        obtain ⟨node, hkept, hbare, hchildren⟩ := h.load (hw.1 key hkey)
        have hload : Alike c c' (Onto x) (fun n => ∀ side, ∀ k ∈ n.child side, k ∈ x.keys)
            (ask ((name.tree true).load key)) (ask ((name.tree false).load key)) := by
          refine alike_ask hkept hbare ?_
          rintro _ ⟨⟩
          exact hchildren
        refine hload.bind fun node hnode => ?_
        refine Alike.bind (alike_modify fun w hw => ⟨hnode _, fun e he => ?_⟩) fun _ _ => ih
        rcases List.mem_cons.mp he with rfl | he
        · exact hnode
        · exact hw.2 e he

theorem alike_pop : Alike c c' (Onto x) (fun _ => True) pop pop := by
  refine alike_get.bind fun w hw => ?_
  split
  next => exact alike_pure trivial
  next key node stack hstack =>
    obtain ⟨-, hnodes⟩ := hw
    rw [hstack] at hnodes
    have hset : Onto x { w with stack, cursor := node.child w.order.after } :=
      ⟨hnodes (key, node) (.head _) _, fun e he => hnodes e (.tail _ he)⟩
    exact (alike_set hset).bind fun _ _ => alike_pure trivial

theorem alike_next (h : Twins name c c' x) :
    Alike c c' (Onto x) (fun _ => True) (next (name.tree true)) (next (name.tree false)) :=
  (alike_start h).bind fun _ _ => alike_get.bind fun _ _ => (alike_descend h _).bind fun _ _ =>
    alike_pop

theorem alike_take (h : Twins name c c' x) (n : Nat) :
    Alike c c' (Onto x) (fun _ => True) (take (name.tree true) n) (take (name.tree false) n) := by
  induction n with
  | zero => exact alike_pure trivial
  | succ n ih =>
      refine (alike_next h).bind fun entry _ => ?_
      cases entry with
      | none => exact alike_pure trivial
      | some entry => exact Alike.map ih _

theorem alike_drain (h : Twins name c c' x) (n : Nat) :
    Alike c c' (Onto x) (fun _ => True) (drain (name.tree true) n) (drain (name.tree false) n) := by
  induction n with
  | zero => exact alike_throw _
  | succ n ih =>
      refine (alike_next h).bind fun entry _ => ?_
      cases entry with
      | none => exact alike_pure trivial
      | some entry => exact Alike.map ih _

theorem alike_along {α : Type} {Q : α → Prop} {m m' : WalkM α} (h : Alike c c' (Onto x) Q m m')
    (order : Order) : Access.Alike c c' (along order m) (along order m') := by
  obtain ⟨reply, w, heval, heval', -⟩ := h { order } (by simp [Onto])
  refine ⟨reply, ?_, ?_⟩
  · rw [Access.eval, run_along, Dialogue.eval_bind, heval]
    rfl
  · rw [Access.eval, run_along, Dialogue.eval_bind, heval']
    rfl

end Walk

/-! ## Serving calls -/

/-- What a call leaves in the store without tombstones. -/
structure Leaves (name : TreeName) (call : Call) (reply : Except Failure CallResult)
    (c c' : Contents) (x x' : Avl) : Prop where
  /-- The record of a key that the tree does not have then stays, whatever it is. -/
  frame : ∀ k ∉ x'.keys, c' (name.nodeKey k) = c (name.nodeKey k)
  /-- A key comes into the tree by an insert only. -/
  mem_keys : ∀ k ∈ x'.keys, k ∈ x.keys ∨ ∃ payload, call = .change (.insert k payload)
  /-- A key that was deleted was in the tree, and no longer is. -/
  deleted : ∀ k, call = .change (.delete k) → reply = .ok (.changed true) →
    k ∈ x.keys ∧ k ∉ x'.keys

/-- A call that finds nothing to do leaves everything as it is. -/
theorem Leaves.same {name : TreeName} {call : Call} {reply : Except Failure CallResult}
    (hreply : ∀ key, call = .change (.delete key) → reply ≠ .ok (.changed true)) (c : Contents)
    (x : Avl) : Leaves name call reply c c x x :=
  ⟨fun _ _ => rfl, fun _ hk => .inl hk, fun key hcall h => absurd h (hreply key hcall)⟩

namespace Twins

variable {name : TreeName} {c c' : Contents} {x x' : Avl}

/-- A flush without tombstones puts nothing at keys that the tree does not have. -/
theorem flush_frame {s : Session} (hs : (name.tree false).Regrown c x' s)
    (oldRoot newRoot : NodeRef) {k : RankKey} (hk : k ∉ x'.keys) :
    c.write (flushPuts (name.tree false) s oldRoot newRoot) (name.nodeKey k) =
      c (name.nodeKey k) := by
  refine Contents.write_of_forall_ne (fun p hp heq => ?_) c
  rw [flushPuts, List.mem_append, List.mem_append] at hp
  rcases hp with (hp | hp) | hp
  · obtain ⟨j, hj, n, -, rfl⟩ := Tree.mem_nodePuts hp
    exact hk (name.nodeKey_inj.mp heq ▸ hs.mem_keys j hj)
  · rw [Tree.mem_rootPuts hp] at heq
    exact name.nodeKey_ne_rootKey k heq.symm
  · cases hp

theorem change (h : Twins name c c' x) (change : Change) (hfits : change.Fits) :
    ∃ reply puts puts' x',
      ((Call.change change).serve (name.tree true)).eval c = (reply, puts) ∧
        ((Call.change change).serve (name.tree false)).eval c' = (reply, puts') ∧
        Twins name (c.write puts) (c'.write puts') x' ∧
        Leaves name (.change change) reply c' (c'.write puts') x x' := by
  rcases h.root_cases with ⟨hkept, hbare⟩ | ⟨failure, hkept, hbare⟩
  · have hreach := name.maxHeight_le_reach true
    have hreach' := name.maxHeight_le_reach false
    cases hx : change.grow x with
    | none =>
        refine ⟨_, [], [], x, Access.eval_map (Change.serve_eval_of_none hkept hreach hx) _,
          Access.eval_map (Change.serve_eval_of_none hbare hreach' hx) _, h, .same ?_ c' x⟩
        simp
    | some x' =>
        obtain ⟨s, heval, -, -, hholds⟩ := Change.session_holds hkept hreach hfits hx
        obtain ⟨s', heval', hs', -, hholds'⟩ := Change.session_holds hbare hreach' hfits hx
        have hkeys := Change.mem_keys_grow h.kept.ordered h.kept.balanced hx
        refine ⟨_, _, _, x', Access.eval_map heval _, Access.eval_map heval' _, ⟨hholds, hholds'⟩,
          fun k hk => flush_frame hs' _ _ hk, fun k hk => ?_, fun key hdelete _ => ?_⟩
        · cases change with
          | insert key payload =>
              rcases (hkeys k).1 hk with hk | rfl
              · exact .inl hk
              · exact .inr ⟨payload, rfl⟩
          | delete key =>
              exact .inl ((Avl.mem_keys_delete h.kept.ordered h.kept.balanced hx k).mp hk).1
        · cases hdelete
          refine ⟨(Avl.mem_delete h.kept.ordered h.kept.balanced hx).1, fun hk => ?_⟩
          exact (hkeys key).2.2 hk (.head _)
  · have hfails : ∀ {t : Tree} {c : Contents}, t.root.eval c = (.error failure, []) →
        ((Call.change change).serve t).eval c = (.error failure, []) := by
      intro t c hroot
      rw [Call.serve, map_eq_pure_bind]
      exact Access.eval_bind_error (change.serve_eval_of_error hroot) _
    exact ⟨_, [], [], x, hfails hkept, hfails hbare, h, .same (by simp) c' x⟩

/-- A call gives the same in both stores, and they hold one tree after it. -/
theorem serve (h : Twins name c c' x) (call : Call) (hfits : call.Fits) :
    ∃ reply puts puts' x', (call.serve (name.tree true)).eval c = (reply, puts) ∧
      (call.serve (name.tree false)).eval c' = (reply, puts') ∧
      Twins name (c.write puts) (c'.write puts') x' ∧
      Leaves name call reply c' (c'.write puts') x x' := by
  have hreads : (∀ change, call ≠ .change change) →
      Access.Alike c c' (call.serve (name.tree true)) (call.serve (name.tree false)) →
      ∃ reply puts puts' x', (call.serve (name.tree true)).eval c = (reply, puts) ∧
        (call.serve (name.tree false)).eval c' = (reply, puts') ∧
        Twins name (c.write puts) (c'.write puts') x' ∧
        Leaves name call reply c' (c'.write puts') x x' := by
    rintro hcall ⟨reply, hkept, hbare⟩
    exact ⟨reply, [], [], x, hkept, hbare, h, .same (fun _ heq => absurd heq (hcall _)) c' x⟩
  cases call with
  | change change => exact h.change change hfits
  | search key => exact hreads nofun ((h.search key).map _)
  | root =>
      obtain ⟨reply, hkept, hbare, -⟩ := h.root
      exact hreads nofun (Access.Alike.map ⟨reply, hkept, hbare⟩ _)
  | entries =>
      exact hreads nofun ((Walk.alike_along (Walk.alike_drain h _) .ascending).map _)
  | topEntries n =>
      exact hreads nofun ((Walk.alike_along (Walk.alike_take h n) .descending).map _)
  | validate => exact hreads nofun (h.validate.map _)

end Twins

/-! ## Runs -/

section

variable {σ τ : Type} [ByteStore σ] [ReliableStore σ] [ByteStore τ] [ReliableStore τ]
  {name : TreeName} {kept : σ} {bare : τ} {x : Avl}

/-- One call of the two trees. -/
theorem Twins.serve_on (hkept : Sound kept) (hbare : Sound bare)
    (h : Twins name (contents kept) (contents bare) x) (call : Call) (hfits : call.Fits) :
    ∃ reply kept' bare' x', (call.serve (name.tree true)).on kept = (reply, kept') ∧
      (call.serve (name.tree false)).on bare = (reply, bare') ∧ Sound kept' ∧ Sound bare' ∧
      Twins name (contents kept') (contents bare') x' ∧
      Leaves name call reply (contents bare) (contents bare') x x' := by
  obtain ⟨reply, puts, puts', x', heval, heval', htwins, hleaves⟩ := h.serve call hfits
  obtain ⟨kept', hon, hkept', hcontents, -⟩ := (call.serve (name.tree true)).on_eq_eval hkept
  obtain ⟨bare', hon', hbare', hcontents', -⟩ := (call.serve (name.tree false)).on_eq_eval hbare
  rw [heval] at hon hcontents
  rw [heval'] at hon' hcontents'
  rw [← hcontents, ← hcontents'] at htwins
  rw [← hcontents'] at hleaves
  exact ⟨reply, kept', bare', x', hon, hon', hkept', hbare', htwins, hleaves⟩

/-- A run of calls gives the same in both stores, and they hold one tree after it. -/
theorem Twins.serveEach (hkept : Sound kept) (hbare : Sound bare)
    (h : Twins name (contents kept) (contents bare) x) {calls : List Call}
    (hfits : ∀ call ∈ calls, call.Fits) :
    ∃ replies kept' bare' x', Call.serveEach (name.tree true) calls kept = (replies, kept') ∧
      Call.serveEach (name.tree false) calls bare = (replies, bare') ∧ Sound kept' ∧ Sound bare' ∧
      Twins name (contents kept') (contents bare') x' := by
  induction calls generalizing kept bare x with
  | nil => exact ⟨[], kept, bare, x, rfl, rfl, hkept, hbare, h⟩
  | cons call calls ih =>
      obtain ⟨reply, kept₁, bare₁, x₁, hon, hon', hkept₁, hbare₁, h₁, -⟩ :=
        h.serve_on hkept hbare call (hfits call (.head _))
      obtain ⟨replies, kept', bare', x', hrest, hrest', hkept', hbare', h'⟩ :=
        ih hkept₁ hbare₁ h₁ fun call hcall => hfits call (.tail _ hcall)
      refine ⟨reply :: replies, kept', bare', x', ?_, ?_, hkept', hbare', h'⟩
      · rw [Call.serveEach_cons hon, hrest]
      · rw [Call.serveEach_cons hon', hrest']

/-- The record of a key that the tree does not have stays until the key is inserted. -/
theorem Twins.serveEach_frame (hkept : Sound kept) (hbare : Sound bare)
    (h : Twins name (contents kept) (contents bare) x) {calls : List Call}
    (hfits : ∀ call ∈ calls, call.Fits) {key : RankKey} (hkey : key ∉ x.keys)
    (hinsert : ∀ payload, .change (.insert key payload) ∉ calls) :
    contents (Call.serveEach (name.tree false) calls bare).2 (name.nodeKey key) =
      contents bare (name.nodeKey key) := by
  induction calls generalizing kept bare x with
  | nil => rfl
  | cons call calls ih =>
      obtain ⟨reply, kept₁, bare₁, x₁, -, hon', hkept₁, hbare₁, h₁, hleaves⟩ :=
        h.serve_on hkept hbare call (hfits call (.head _))
      have hkey₁ : key ∉ x₁.keys := by
        intro hk
        rcases hleaves.mem_keys key hk with hk | ⟨payload, hcall⟩
        · exact hkey hk
        · exact hinsert payload (hcall ▸ .head _)
      rw [Call.serveEach_cons hon', ← hleaves.frame key hkey₁]
      exact ih hkept₁ hbare₁ h₁ (fun call hcall => hfits call (.tail _ hcall)) hkey₁
        fun payload hmem => hinsert payload (.tail _ hmem)

/-- The record of a node that is deleted stays until its key is inserted. -/
theorem Twins.delete_frame (hkept : Sound kept) (hbare : Sound bare)
    (h : Twins name (contents kept) (contents bare) x) {key : RankKey} {calls : List Call}
    (hfits : ∀ call ∈ calls, call.Fits) (hinsert : ∀ payload, .change (.insert key payload) ∉ calls)
    (hdeleted : (((Call.change (.delete key)).serve (name.tree false)).on bare).1 =
      .ok (.changed true)) :
    ((name.tree false).stored (contents bare) key).isSome ∧
      contents (Call.serveEach (name.tree false) (.change (.delete key) :: calls) bare).2
        (name.nodeKey key) = contents bare (name.nodeKey key) := by
  obtain ⟨reply, kept₁, bare₁, x₁, -, hon, hkept₁, hbare₁, h₁, hleaves⟩ :=
    h.serve_on hkept hbare (.change (.delete key)) trivial
  rw [hon] at hdeleted
  obtain ⟨hold, hnew⟩ := hleaves.deleted key rfl hdeleted
  obtain ⟨node, hnode⟩ := h.bare.stands.links.isSome hold
  refine ⟨Option.isSome_of_eq_some hnode, ?_⟩
  rw [Call.serveEach_cons hon, ← hleaves.frame key hnew]
  exact h₁.serveEach_frame hkept₁ hbare₁ hfits hnew hinsert

end

/-- A tree without tombstones answers every run of calls from an empty store as one with
tombstones does, although it leaves the record of a deleted node as it was until the key is
inserted again. -/
theorem stale_records_unseen {σ τ : Type} [ByteStore σ] [ReliableStore σ] [ByteStore τ]
    [ReliableStore τ] (name : TreeName) {kept : σ} {bare : τ} (hkept : Sound kept)
    (hbare : Sound bare) (hempty : (name.tree true).PointsTo (contents kept) none)
    (hempty' : (name.tree false).PointsTo (contents bare) none) {calls : List Call}
    (hfits : ∀ call ∈ calls, call.Fits) :
    (Call.serveEach (name.tree true) calls kept).1 =
        (Call.serveEach (name.tree false) calls bare).1 ∧
      ∀ before key middle after, calls = before ++ .change (.delete key) :: (middle ++ after) →
        (∀ payload, .change (.insert key payload) ∉ middle) →
        let held := (Call.serveEach (name.tree false) before bare).2
        let left := (Call.serveEach (name.tree false) (.change (.delete key) :: middle) held).2
        (((Call.change (.delete key)).serve (name.tree false)).on held).1 = .ok (.changed true) →
          ((name.tree false).stored (contents held) key).isSome ∧
            contents left (name.nodeKey key) = contents held (name.nodeKey key) := by
  have hstart : Twins name (contents kept) (contents bare) .nil :=
    ⟨Tree.holds_nil hempty, Tree.holds_nil hempty'⟩
  constructor
  · obtain ⟨replies, kept', bare', x', hrun, hrun', -⟩ := hstart.serveEach hkept hbare hfits
    rw [hrun, hrun']
  · rintro before key middle after rfl hmiddle held left hdeleted
    have hbefore : ∀ call ∈ before, call.Fits := fun call hcall => hfits call (by simp [hcall])
    have hafter : ∀ call ∈ middle, call.Fits := fun call hcall => hfits call (by simp [hcall])
    obtain ⟨replies, kept₁, bare₁, x₁, -, hrun, hkept₁, hbare₁, h₁⟩ :=
      hstart.serveEach hkept hbare hbefore
    have hheld : held = bare₁ := congrArg Prod.snd hrun
    simp only [left, hheld] at hdeleted ⊢
    exact h₁.delete_frame hkept₁ hbare₁ hafter hmiddle hdeleted

/-- A key is deleted and inserted again over its stale record. -/
theorem stale_records_unseen_memory :
    let key (count : Int64) := RankKey.make count 0 .newerFirst
    let before : List Call := [.change (.insert (key 1) "a"), .change (.insert (key 2) "b")]
    let middle : List Call := [.search (key 1), .root]
    let after : List Call := [.change (.insert (key 1) "c"), .entries, .topEntries 1, .validate]
    let calls : List Call := before ++ .change (.delete (key 1)) :: (middle ++ after)
    let held := (Call.serveEach (TreeName.t.tree false) before ({} : MemoryStore)).2
    let left :=
      (Call.serveEach (TreeName.t.tree false) (.change (.delete (key 1)) :: middle) held).2
    (Call.serveEach (TreeName.t.tree true) calls ({} : MemoryStore)).1 =
        (Call.serveEach (TreeName.t.tree false) calls ({} : MemoryStore)).1 ∧
      ((TreeName.t.tree false).stored (contents held) (key 1)).isSome ∧
        contents left (TreeName.t.nodeKey (key 1)) =
          contents held (TreeName.t.nodeKey (key 1)) := by
  intro key before middle after calls held left
  have hfits : ∀ call ∈ calls, call.Fits := by decide
  have hsound : Sound ({} : MemoryStore) := trivial
  obtain ⟨hreplies, hstale⟩ := stale_records_unseen .t hsound hsound
    (.inl (by simp [contents])) (.inl (by simp [contents])) hfits
  have hmiddle : ∀ payload, .change (.insert (key 1) payload) ∉ middle := by simp [middle]
  have hdeleted : (((Call.change (.delete (key 1))).serve (TreeName.t.tree false)).on held).1 =
      .ok (.changed true) := by decide +kernel
  have hrecord := hstale before (key 1) middle after rfl hmiddle hdeleted
  simp only [held, left]
  exact ⟨hreplies, hrecord⟩

end Leaderboard
