import Leaderboard.Proofs.Store.Recording
import Leaderboard.Proofs.Tree.Map

/-!
# Balancing one node

A session balances a node whose subtrees are balanced trees, with heights that differ by two
at most.  Whatever height the node has stored, this succeeds and gives the root of a balanced
tree with the same entries, and no other node changes (`rebalance_restores`).

A flush writes the marked nodes only, so a session has to mark each node that it makes differ
from the stored one (`Session.Marks`).  All actions of a session go on doing so
(`Tree.marking_closed`).
-/

namespace Leaderboard

open ReliableStore (Sound contents)
open SessionM (Gives gives_pure gives_lift)

/-! ## Marks -/

/-- A session has marked each of its nodes that is not the stored one. -/
def Session.Marks (t : Tree) (c : Contents) (s : Session) : Prop :=
  ∀ k n, s.nodes[k]? = some n → t.stored c k ≠ some n → k ∈ s.dirty

namespace SessionM

variable {α β : Type} {t : Tree} {c : Contents} {s s' s'' : Session}

/-- An action that goes on with another one succeeds only if both do. -/
theorem Gives.of_bind {m : SessionM α} {f : α → SessionM β} {b : β}
    (h : Gives c (m >>= f) s b s'') : ∃ a s', Gives c m s a s' ∧ Gives c (f a) s' b s'' := by
  rw [Gives, run_bind] at h
  obtain ⟨⟨outcome, puts⟩, hm⟩ : ∃ p, (m.run s).eval c = p := ⟨_, rfl⟩
  cases outcome with
  | error failure =>
      rw [Access.eval_bind_error hm] at h
      cases h
  | ok p =>
      rw [Access.eval_bind hm, Prod.mk.injEq, List.append_eq_nil_iff] at h
      obtain ⟨hf, rfl, hputs⟩ := h
      exact ⟨p.1, p.2, hm, Prod.ext hf hputs⟩

theorem Gives.unique {m : SessionM α} {a b : α} (h : Gives c m s a s') (h' : Gives c m s b s'') :
    a = b ∧ s' = s'' := by
  simpa using h.symm.trans h'

/-- A session that has marked what it changed goes on so. -/
def Marking (t : Tree) (c : Contents) (m : SessionM α) : Prop :=
  ∀ s a s', Gives c m s a s' → s.Marks t c → s'.Marks t c

theorem marking_pure (a : α) : Marking t c (pure a) := by
  intro s b s' h hs
  obtain ⟨-, rfl⟩ := h.unique (gives_pure a)
  exact hs

theorem Marking.bind {m : SessionM α} {f : α → SessionM β} (h : Marking t c m)
    (hf : ∀ a, Marking t c (f a)) : Marking t c (m >>= f) := by
  intro s b s'' hbind hs
  obtain ⟨a, s', hm, hfa⟩ := hbind.of_bind
  exact hf a s' b s'' hfa (h s a s' hm hs)

end SessionM

open SessionM (Marking marking_pure)

namespace Tree

variable {t : Tree} {c : Contents}

theorem marking_fetch (key : RankKey) : Marking t c (t.fetch key) := by
  intro s n s' h hs
  obtain ⟨_, s₁, hget, hread⟩ := h.of_bind
  obtain ⟨rfl, rfl⟩ := hget.unique SessionM.gives_get
  cases hn : s₁.nodes[key]? with
  | some m =>
      rw [hn] at hread
      obtain ⟨-, rfl⟩ := hread.unique (gives_pure m)
      exact hs
  | none =>
      rw [hn] at hread
      obtain ⟨m, s₂, hload, hkeep⟩ := hread.of_bind
      rcases t.load_cases c key with ⟨stored, hstored, heval⟩ | ⟨-, failure, -, heval⟩
      · obtain ⟨rfl, rfl⟩ := hload.unique (gives_lift heval)
        obtain ⟨-, rfl⟩ := hkeep.unique ((SessionM.gives_modify _).bind (gives_pure m))
        intro k n' hn' hne
        rw [getElem?_insert] at hn'
        split at hn'
        next hk =>
          subst hk
          exact absurd (hstored.trans hn') hne
        next => exact hs k n' hn' hne
      · have hfail : Access.eval ((liftM (t.load key) : SessionM Node).run s₁) c =
            (.error failure, []) := Access.eval_bind_error heval _
        rw [Gives, hfail] at hload
        cases hload

theorem marking_store (key : RankKey) (node : Node) : Marking t c (store key node) := by
  intro s _ s' h hs
  obtain ⟨-, rfl⟩ := h.unique (SessionM.gives_modify _)
  intro k n hn hne
  rw [RankKey.mem_insertInto]
  rw [getElem?_insert] at hn
  split at hn
  next hk => exact .inl hk.symm
  next => exact .inr (hs k n hn hne)

theorem marking_discard (key : RankKey) : Marking t c (discard key) := by
  intro s _ s' h hs
  obtain ⟨-, rfl⟩ := h.unique (SessionM.gives_modify _)
  intro k n hn hne
  simp only [Std.TreeMap.getElem?_erase, Std.LawfulEqOrd.compare_eq_iff_eq] at hn
  split at hn
  next => cases hn
  next hk => exact List.mem_filter.mpr ⟨hs k n hn hne, by simpa using Ne.symm hk⟩

/-- Every action of a session marks what it changes. -/
theorem marking_closed (t : Tree) (c : Contents) :
    t.SessionClosed fun _ m => Marking t c m where
  pure := marking_pure
  bind := Marking.bind
  fetch := marking_fetch
  store := marking_store
  discard := marking_discard
  fault _ := nofun

end Tree

/-! ## Balancing -/

theorem Avl.ordered_balance {l : Avl} {k : RankKey} {p : String} {r : Avl}
    (h : (Avl.node l k p r).Ordered) : (Avl.balance l k p r).Ordered := by
  rw [Avl.Ordered, Avl.keys, Avl.entries_balance]
  exact h

/-- Balancing a node whose subtrees are balanced, of heights that differ by two at most, gives
the root of a balanced tree with the same entries.  It is one higher than the higher subtree, or
as high as that one if the heights differ by two.  The nodes outside are as before, and so are
their marks, and a session that has marked what it changed goes on so. -/
theorem rebalance_restores {σ : Type} [ByteStore σ] [ReliableStore σ] (t : Tree) {store : σ}
    (hsound : Sound store) (s : Session) {l : Avl} {k : RankKey} {p : String} {r : Avl}
    (hnode : Avl.Leans (s.sees t (contents store)) .left l k p r)
    (hordered : (Avl.node l k p r).Ordered) (hl : l.Balanced) (hr : r.Balanced)
    (hleft : l.height ≤ r.height + 2) (hright : r.height ≤ l.height + 2) :
    ∃ (top : RankKey) (s' : Session) (store' : σ) (x : Avl),
      ((t.rebalance k).run s).on store = (.ok (top, s'), store') ∧
      contents store' = contents store ∧
      x.root = some top ∧ x.Stands (s'.sees t (contents store)) ∧ x.Ordered ∧ x.Balanced ∧
      x.entries = l.entries ++ (k, p) :: r.entries ∧
      (x.height = max l.height r.height + 1 ∨
        (l.height = r.height + 2 ∨ r.height = l.height + 2) ∧
          x.height = max l.height r.height) ∧
      (∀ j ∉ (Avl.node l k p r).keys,
        s'.sees t (contents store) j = s.sees t (contents store) j ∧
          (j ∈ s'.dirty → j ∈ s.dirty)) ∧
      s'.removed = s.removed ∧
      (s.Marks t (contents store) → s'.Marks t (contents store)) := by
  obtain ⟨s', top, hgives, hevolves, hroot, hstands⟩ :=
    Tree.rebalance_gives hnode hordered.nodup hl hr
  obtain ⟨store', hon, -, hcontents, -⟩ := Access.on_eq_eval ((t.rebalance k).run s) hsound
  rw [hgives] at hon hcontents
  have houtside : ∀ j ∉ (Avl.node l k p r).keys,
      s'.sees t (contents store) j = s.sees t (contents store) j ∧
        (j ∈ s'.dirty → j ∈ s.dirty) := by
    intro j hj
    refine ⟨hevolves.sees_eq j hj, fun hmark => ?_⟩
    rcases hevolves.dirty_of j hmark with hmark | hin
    · exact hmark
    · exact absurd hin hj
  have hmarks := (Tree.marking_closed t (contents store)).rebalance k s top s' hgives
  exact ⟨top, s', store', Avl.balance l k p r, hon, hcontents, hroot, hstands,
    Avl.ordered_balance hordered, Avl.balanced_balance hl hr hleft hright k p,
    Avl.entries_balance .., Avl.height_balance hl hr hleft hright k p, houtside,
    hevolves.removed_eq, hmarks⟩

namespace Heavy

/-- The name of the tree. -/
def name : TreeName := .t

/-- The key of a count. -/
def key (count : Int64) : RankKey := .make count 0 .newerFirst

/-- The left subtree: both children of its root are leaves. -/
def low : Avl :=
  .node (.node .nil (key 1) "a" .nil) (key 2) "b" (.node .nil (key 3) "c" .nil)

/-- A store with the left subtree. -/
def store : MemoryStore :=
  (Access.onEach ([Change.insert (key 2) "b", .insert (key 1) "a", .insert (key 3) "c"].map
    (Change.serve (name.tree true))) {}).2

/-- A session with the node above it, which has lost the right child. -/
def session : Session where
  nodes := (∅ : Std.TreeMap RankKey Node).insert (key 4)
    { payload := "d", left := key 2, height := 9 }
  dirty := [key 4]

theorem leans : Avl.Leans (session.sees (name.tree true) (contents store)) .left low (key 4) "d"
    .nil := by
  refine ⟨⟨{ payload := "d", left := key 2, height := 9 }, ?_, rfl, rfl, rfl⟩, ?_, trivial⟩
  · decide +kernel
  · refine ⟨⟨2, ?_, rfl⟩, ⟨⟨1, ?_, rfl⟩, trivial, trivial⟩, ⟨1, ?_, rfl⟩, trivial, trivial⟩
    · decide +kernel
    · decide +kernel
    · decide +kernel

theorem marks : session.Marks (name.tree true) (contents store) := by
  intro k n hn _
  simp only [session, Tree.getElem?_insert] at hn
  split at hn
  next hk => exact hk ▸ .head _
  next => cases hn

end Heavy

/-- A node that has lost its right child, above a left child whose own children are as high as
each other, is turned to the right, and the tree stays as high as it was. -/
theorem rebalance_restores_even_child :
    ∃ (top : RankKey) (s' : Session) (store' : MemoryStore) (x : Avl),
      (((Heavy.name.tree true).rebalance (Heavy.key 4)).run Heavy.session).on Heavy.store =
        (.ok (top, s'), store') ∧ x.root = some top ∧
      x.Stands (s'.sees (Heavy.name.tree true) (contents Heavy.store)) ∧
      x.entries.map Prod.snd = ["a", "b", "c", "d"] ∧
      s'.Marks (Heavy.name.tree true) (contents Heavy.store) := by
  have hordered : (Avl.node Heavy.low (Heavy.key 4) "d" .nil).Ordered := by
    show [Heavy.key 1, Heavy.key 2, Heavy.key 3, Heavy.key 4].Pairwise (· < ·)
    decide +kernel
  obtain ⟨top, s', store', x, hon, -, hroot, hstands, -, -, hentries, -, -, -, hmarks⟩ :=
    rebalance_restores (Heavy.name.tree true) trivial Heavy.session Heavy.leans hordered
      (by simp [Heavy.low, Avl.Balanced]) trivial (by decide) (by decide)
  refine ⟨top, s', store', x, hon, hroot, hstands, ?_, hmarks Heavy.marks⟩
  rw [hentries]
  rfl

end Leaderboard
