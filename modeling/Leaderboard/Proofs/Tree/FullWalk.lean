import Leaderboard.Proofs.Tree.Circling
import Leaderboard.Proofs.Tree.Map
import Leaderboard.Proofs.Tree.Steady
import Mathlib.Data.Finset.Card

/-!
# Walks to the end

A walk through finitely many nodes that does not circle comes to an end.  This is an
induction on the room on the stack.  In the subtree before a node a walk has less
room, and the nodes along the pointers to later subtrees are all different
(`Walk.settles_later`).

So a walk from the root to the end gives a list or a failure, unless it comes to a
circle, and then it never ends (`full_walk_ends_unless_circling`).  A store with one
node is enough for that (`entries_never_end`).
-/

namespace Leaderboard

open ReliableStore (Sound contents)
open WalkM (Gives gives_pure gives_get gives_modify gives_ask)

namespace Walk

variable {t : Tree} {c : Contents} {w w' : Walk} {ps : List Placement} {o : Order} {room : Nat}
  {ref : NodeRef} {k : RankKey} {n : Node}

/-! ## Walks that end -/

/-- A walk up to the end has an outcome, which is not that of an endless loop, once it may take some
number of calls. -/
def Ends (t : Tree) (c : Contents) (n : Nat) (w : Walk) : Prop :=
  ∃ outcome, (∀ failure, outcome = .error failure → ¬ failure.Endless) ∧
    ∀ calls, n ≤ calls → drained t c calls w = outcome

theorem Ends.mono {a b : Nat} (h : Ends t c a w) (hle : a ≤ b) : Ends t c b w := by
  obtain ⟨outcome, hends, hdrained⟩ := h
  exact ⟨outcome, hends, fun calls hcalls => hdrained calls (Nat.le_trans hle hcalls)⟩

theorem Leads.ends {a : Nat} (h : Leads t c w ps w') (h' : Ends t c a w') :
    Ends t c (ps.length + a) w := by
  obtain ⟨outcome, hends, hdrained⟩ := h'
  refine ⟨outcome.map (ps ++ ·), fun failure hfailure => ?_, fun calls hcalls => ?_⟩
  · cases outcome with
    | ok rs => cases hfailure
    | error failure' =>
        cases hfailure
        exact hends _ rfl
  · rw [h, hdrained _ (by omega)]

theorem ends_of_error {failure : Failure} (hfailure : ¬ failure.Endless)
    (h : Dialogue.eval ((next t).run.run w) c = ((.error failure, w'), [])) : Ends t c 1 w := by
  refine ⟨.error failure, fun failure' h' => ?_, fun calls hcalls => ?_⟩
  · cases h'
    exact hfailure
  · obtain ⟨calls, rfl⟩ := Nat.exists_eq_add_of_le' hcalls
    exact drained_of_error h calls

/-- A walk ends where its stack is empty. -/
theorem ends_of_none (h : At o maxDepth none w) : Ends t c 1 w := by
  have hstack : w.stack = [] := by
    have := h.room
    exact List.length_eq_zero_iff.mp (by omega)
  have hnext : Gives c (next t) w none w := by
    rw [Gives, next_eval h]
    refine (descend_gives_of_none h.cursor _).bind (gives_get.bind ?_)
    rw [hstack]
    exact gives_pure none
  refine ⟨.ok [], by simp, fun calls hcalls => ?_⟩
  obtain ⟨calls, rfl⟩ := Nat.exists_eq_add_of_le' hcalls
  exact drained_of_gives_none hnext calls

/-- A walk fails where its stack is full. -/
theorem ends_of_full (h : At o 0 (some k) w) : Ends t c 1 w := by
  have hdescend : Dialogue.eval ((descend t 0).run.run w) c =
      ((.error (.integrity (.tooDeep t.name.text maxDepth)), w), []) := by
    rw [descend, gives_get.eval_bind, h.cursor]
    rfl
  exact ends_of_error (Tree.not_endless_integrity fun _ _ h => by cases h)
    ((next_eval h).trans (WalkM.eval_bind_error hdescend _))

/-- A walk fails at a node that cannot be read. -/
theorem ends_of_missing (h : At o (room + 1) (some k) w) (hk : t.stored c k = none) :
    Ends t c 1 w := by
  rcases Tree.load_cases t c k with ⟨n, hn, -⟩ | ⟨-, failure, hfailure, hload⟩
  · rw [hk] at hn
    cases hn
  · have hdescend : Dialogue.eval ((descend t (room + 1)).run.run w) c =
        ((.error failure, w), []) := by
      rw [descend, gives_get.eval_bind, h.cursor]
      exact WalkM.eval_bind_error (WalkM.eval_ask hload) _
    exact ends_of_error hfailure.not_endless
      ((next_eval h).trans (WalkM.eval_bind_error hdescend _))

/-- A walk gets through the subtree at a pointer with less than some number of entries, or it ends
within so many calls. -/
def Settles (t : Tree) (c : Contents) (o : Order) (room : Nat) (ref : NodeRef) (n : Nat)
    (w : Walk) : Prop :=
  (∃ ps, Leads t c w ps w.skip ∧ ps.length < n ∧ (t.stored c).Completes o room ref) ∨ Ends t c n w

theorem Settles.mono {a b : Nat} (h : Settles t c o room ref a w) (hle : a ≤ b) :
    Settles t c o room ref b w := by
  rcases h with ⟨ps, hps, hlength, hcompletes⟩ | hends
  · exact .inl ⟨ps, hps, Nat.lt_of_lt_of_le hlength hle, hcompletes⟩
  · exact .inr (hends.mono hle)

theorem settles_none (h : At o room none w) {a : Nat} (ha : 0 < a) :
    Settles t c o room none a w := by
  refine .inl ⟨[], ?_, ha, .none room⟩
  rw [skip, ← h.cursor]
  exact leads_refl w

variable {top : NodeRef} {nodes : Finset RankKey}

/-- From every node that is not fresh a walk goes onward to what is at the cursor. -/
def Trails (m : Memory) (o : Order) (room : Nat) (fresh : Finset RankKey) (ref : NodeRef) : Prop :=
  ∀ i n, m i = some n → i ∉ fresh → ∀ k ∈ ref, Relation.TransGen (m.Onward o room) i k

/-- Where a node is left for the subtree after it, it is no more fresh. -/
theorem Trails.leave {m : Memory} {fresh : Finset RankKey} (h : Trails m o room fresh (some k))
    (hn : m k = some n) (hbefore : m.Completes o room (n.child o.before)) :
    Trails m o room (fresh.erase k) (n.child o.after) := by
  intro i n' hi hout j hj
  have honward : m.Onward o room k j := ⟨n, hn, hbefore, hj⟩
  by_cases hik : i = k
  · subst hik
    exact .single honward
  · have hi' : i ∉ fresh := fun hfresh => hout (Finset.mem_erase.mpr ⟨hik, hfresh⟩)
    exact (h i n' hi hi' k rfl).tail honward

/-- If a walk settles in the subtrees before nodes, then it settles along the pointers to later
subtrees: each node it comes to is fresh, since it does not circle. -/
theorem settles_later (hcircles : ¬ (t.stored c).Circles o top) {bound : Nat}
    (hbefore : ∀ ref w, (t.stored c).Comes o top room ref → At o room ref w →
      Settles t c o room ref bound w)
    (fresh : Finset RankKey) (hcomes : (t.stored c).Comes o top (room + 1) ref)
    (h : At o (room + 1) ref w) (htrails : Trails (t.stored c) o room fresh ref) :
    Settles t c o (room + 1) ref (fresh.card * bound + 1) w := by
  induction fresh using Finset.strongInduction generalizing ref w with
  | H fresh ih =>
      cases ref with
      | none => exact settles_none h (Nat.succ_pos _)
      | some k =>
          cases hn : t.stored c k with
          | none => exact .inr ((ends_of_missing h hn).mono (by omega))
          | some n =>
              have hk : k ∈ fresh := by
                by_contra hk
                exact hcircles ⟨room, k, hcomes, htrails k n hn hk k rfl⟩
              have hcard : fresh.card * bound = (fresh.erase k).card * bound + bound := by
                rw [← Finset.card_erase_add_one hk, Nat.succ_mul]
              rcases hbefore _ _ (hcomes.before hn) (h.push n) with
                ⟨ps, hps, hlength, hcompletes⟩ | hends
              · have hnode := Leads.node h hn hps
                have hlength' : (ps ++ [(k, n.payload)]).length ≤ bound := by
                  rw [List.length_append, List.length_singleton]
                  omega
                rcases ih _ (Finset.erase_ssubset hk) (hcomes.after hn hcompletes) (h.leave n)
                  (htrails.leave hn hcompletes) with ⟨qs, hqs, hlength'', hlater⟩ | hends
                · refine .inl ⟨_, hnode.trans hqs, ?_, .node hn hcompletes hlater⟩
                  rw [List.length_append]
                  omega
                · exact .inr ((hnode.ends hends).mono (by omega))
              · refine .inr (((leads_push h hn).ends hends).mono ?_)
                rw [List.length_nil]
                omega

/-- A walk through finitely many nodes settles at each pointer it comes to. -/
theorem settles (hcircles : ¬ (t.stored c).Circles o top)
    (hnodes : ∀ k n, t.stored c k = some n → k ∈ nodes) (room : Nat) (ref : NodeRef) (w : Walk)
    (hcomes : (t.stored c).Comes o top room ref) (h : At o room ref w) :
    Settles t c o room ref ((nodes.card + 1) ^ room) w := by
  induction room generalizing ref w with
  | zero =>
      cases ref with
      | none => exact settles_none h (Nat.succ_pos _)
      | some k => exact .inr (ends_of_full h)
  | succ room ih =>
      have hlater := settles_later hcircles ih nodes hcomes h
        fun i n hi hout _ _ => absurd (hnodes i n hi) hout
      have hpos : 0 < (nodes.card + 1) ^ room := Nat.pow_pos (Nat.succ_pos _)
      refine hlater.mono ?_
      rw [Nat.pow_succ', Nat.succ_mul]
      omega

theorem ends_of_not_circles (hcircles : ¬ (t.stored c).Circles o top)
    (hnodes : ∀ k n, t.stored c k = some n → k ∈ nodes) (h : At o maxDepth top w) :
    Ends t c ((nodes.card + 1) ^ maxDepth) w := by
  rcases settles hcircles hnodes maxDepth top w .top h with ⟨ps, hps, hlength, -⟩ | hends
  · exact (hps.ends (ends_of_none h.skip)).mono hlength
  · exact hends

/-! ## Walks from the root -/

/-- The place of a new walk that has read the pointer to the root. -/
def onset (order : Order) (top : NodeRef) : Walk := { order, cursor := top, started := true }

theorem at_onset (o : Order) (top : NodeRef) : At o maxDepth top (onset o top) :=
  ⟨rfl, rfl, rfl, Nat.zero_add _⟩

theorem drained_new (hroot : t.root.eval c = (.ok top, [])) (o : Order) (calls : Nat) :
    drained t c calls { order := o } = drained t c calls (onset o top) := by
  have hstart : Gives c (start t) { order := o } () (onset o top) :=
    gives_get.bind ((gives_ask hroot).bind (gives_modify _))
  have hagain : Gives c (start t) (onset o top) () (onset o top) := start_gives rfl
  exact drained_congr (WalkM.eval_bind_congr (hstart.trans hagain.symm) _) calls

theorem ends_new_of_error {failure : Failure} (hfailure : ¬ failure.Endless)
    (hroot : t.root.eval c = (.error failure, [])) (o : Order) : Ends t c 1 { order := o } := by
  have hstart : Dialogue.eval ((start t).run.run { order := o }) c =
      ((.error failure, { order := o }), []) :=
    (gives_get.eval_bind _).trans (WalkM.eval_bind_error (WalkM.eval_ask hroot) _)
  exact ends_of_error hfailure (WalkM.eval_bind_error hstart _)

/-- The outcome of a walk that is made from its start to its end. -/
theorem along_drain_on {σ : Type} [ByteStore σ] [ReliableStore σ] {store : σ}
    (hsound : Sound store) (t : Tree) (o : Order) (calls : Nat) :
    ((along o (drain t calls)).on store).1 =
      drained t (contents store) calls { order := o } := by
  rw [Access.on_fst _ hsound, eval_along]
  rfl

end Walk

namespace Tree

variable {t : Tree} {c : Contents} {o : Order}

/-- A walk that starts at the root comes to a circle. -/
def Circles (t : Tree) (c : Contents) (o : Order) : Prop :=
  ∃ top, t.PointsTo c top ∧ (∀ k ∈ top, k.Made) ∧ (t.stored c).Circles o top

theorem Circles.later (h : t.Circles c o) : ∃ k, Relation.TransGen ((t.stored c).Later o) k k := by
  obtain ⟨top, -, -, hcircles⟩ := h
  exact hcircles.later

theorem Circles.drained (h : t.Circles c o) (calls : Nat) :
    Walk.drained t c calls { order := o } = .error t.endless := by
  obtain ⟨top, hpoints, hmade, hcircles⟩ := h
  rw [Walk.drained_new (root_eval hpoints hmade)]
  exact Walk.drained_of_circles hcircles (Walk.at_onset o top) calls

theorem ends_of_not_circles (h : ¬ t.Circles c o) {nodes : Finset RankKey}
    (hnodes : ∀ k n, t.stored c k = some n → k ∈ nodes) :
    Walk.Ends t c ((nodes.card + 1) ^ Walk.maxDepth) { order := o } := by
  rcases root_cases t c with ⟨top, hpoints, hmade, hroot⟩ | ⟨failure, hfailure, hroot⟩
  · have htop : ¬ (t.stored c).Circles o top := fun hcircles => h ⟨top, hpoints, hmade, hcircles⟩
    obtain ⟨outcome, hends, hdrained⟩ :=
      Walk.ends_of_not_circles htop hnodes (Walk.at_onset o top)
    exact ⟨outcome, hends, fun calls hcalls =>
      (Walk.drained_new hroot o calls).trans (hdrained calls hcalls)⟩
  · exact (Walk.ends_new_of_error hfailure.not_endless hroot o).mono
      (Nat.pow_pos (Nat.succ_pos _))

end Tree

/-! ## A node that is its own child -/

namespace Loop

/-- The key of the node. -/
def key : RankKey := .make 1 0 .newerFirst

/-- The node, which has itself on its right. -/
def node : Node := { payload := "a", right := some key, height := 1 }

/-- A store with the node at the root. -/
def store : MemoryStore where
  records := ((∅ : Std.TreeMap Bytes Bytes).insert TreeName.t.rootKey key.encode).insert
    (TreeName.t.nodeKey key) node.encode

/-- The tree, where loops give up after some steps. -/
def tree (reach : Nat) : Tree := { name := .t, reach }

theorem contents_store : contents store =
    (Contents.put (contents ({} : MemoryStore)) TreeName.t.rootKey key.encode).put
      (TreeName.t.nodeKey key) node.encode := by
  funext k
  simp only [contents, store, ← MemoryStore.getElem?_insert]

theorem pointsTo (reach : Nat) : (tree reach).PointsTo (contents store) (some key) := by
  rw [contents_store]
  exact (Contents.put_of_ne _ _ (TreeName.t.nodeKey_ne_rootKey key).symm).trans
    (Contents.put_self ..)

/-- There are no other nodes. -/
theorem stored_eq (reach : Nat) (k : RankKey) :
    (tree reach).stored (contents store) k = if k = key then some node else none := by
  have hroot := Contents.put_of_ne (contents ({} : MemoryStore)) key.encode
    (TreeName.t.nodeKey_ne_rootKey k)
  rw [contents_store]
  refine (Tree.stored_put (t := tree reach) _ key (by decide) k).trans (congrArg (ite _ _) ?_)
  rw [Tree.stored_congr (t := tree reach) hroot]
  simp [Tree.stored, contents]

theorem eq_key_of_stored {reach : Nat} {k : RankKey} {n : Node}
    (h : (tree reach).stored (contents store) k = some n) : k = key := by
  by_contra hk
  rw [stored_eq, if_neg hk] at h
  cases h

theorem circles (reach : Nat) : (tree reach).Circles (contents store) .ascending := by
  refine ⟨some key, pointsTo reach, ?_, 127, key, .top, .single ⟨node, ?_, .none _, rfl⟩⟩
  · intro k hk
    cases hk
    rfl
  · rw [stored_eq, if_pos rfl]

/-- No pointer leads to the left. -/
theorem not_circles (reach : Nat) : ¬ (tree reach).Circles (contents store) .descending := by
  intro hcircles
  obtain ⟨k, hround⟩ := hcircles.later
  obtain ⟨i, ⟨n, hn, hk⟩, -⟩ := Relation.TransGen.head'_iff.mp hround
  rw [stored_eq] at hn
  split at hn
  · cases hn
    cases hk
  · cases hn

end Loop

/-! ## Walks that end, and others -/

/-- A walk through finitely many nodes ends with a list or with a failure, unless it comes to a
circle.  Then the pointers to later subtrees lead around, and the walk never ends, however many
calls it makes. -/
theorem full_walk_ends_unless_circling {σ : Type} [ByteStore σ] [ReliableStore σ] (t : Tree)
    {store : σ} (hsound : Sound store) {nodes : Finset RankKey}
    (hnodes : ∀ k n, t.stored (contents store) k = some n → k ∈ nodes) (order : Order) :
    (¬ t.Circles (contents store) order →
      ∃ outcome, (∀ failure, outcome = .error failure → ¬ failure.Endless) ∧
        ∀ calls, (nodes.card + 1) ^ Walk.maxDepth ≤ calls →
          ((Walk.along order (Walk.drain t calls)).on store).1 = outcome) ∧
    (t.Circles (contents store) order →
      (∃ k, Relation.TransGen ((t.stored (contents store)).Later order) k k) ∧
        ∀ calls, ((Walk.along order (Walk.drain t calls)).on store).1 = .error t.endless) := by
  simp only [Walk.along_drain_on hsound]
  exact ⟨fun h => Tree.ends_of_not_circles h hnodes, fun h => ⟨h.later, h.drained⟩⟩

/-- The walk downward gives the node and ends, and the one upward gives it again and again. -/
theorem full_walk_ends_unless_circling_loop :
    (∀ k n, (Loop.tree 9).stored (contents Loop.store) k = some n →
        k ∈ ({Loop.key} : Finset RankKey)) ∧
      (∃ outcome, (∀ failure, outcome = .error failure → ¬ failure.Endless) ∧
        ∀ calls, 2 ^ 128 ≤ calls →
          ((Walk.along .descending (Walk.drain (Loop.tree 9) calls)).on Loop.store).1 = outcome) ∧
      ∀ calls, ((Walk.along .ascending (Walk.drain (Loop.tree 9) calls)).on Loop.store).1 =
        .error (.integrity (.endless "t" 9)) := by
  have hnodes : ∀ k n, (Loop.tree 9).stored (contents Loop.store) k = some n →
      k ∈ ({Loop.key} : Finset RankKey) :=
    fun k n hn => Finset.mem_singleton.mpr (Loop.eq_key_of_stored hn)
  have hdown := full_walk_ends_unless_circling (Loop.tree 9) trivial hnodes .descending
  have hup := full_walk_ends_unless_circling (Loop.tree 9) trivial hnodes .ascending
  exact ⟨hnodes, hdown.1 (Loop.not_circles 9), (hup.2 (Loop.circles 9)).2⟩

/-- A store with one node lists that node without end, however many steps the walk may take. -/
theorem entries_never_end :
    (∀ k n, (TreeName.t.tree true).stored (contents Loop.store) k = some n → k = Loop.key) ∧
      ∀ n, ((Tree.entries { name := .t, reach := n }).on Loop.store).1 =
        .error (.integrity (.endless "t" n)) := by
  constructor
  · exact fun k n hn => Loop.eq_key_of_stored hn
  · intro n
    exact (Walk.along_drain_on trivial (Loop.tree n) .ascending n).trans
      ((Loop.circles n).drained n)

end Leaderboard
