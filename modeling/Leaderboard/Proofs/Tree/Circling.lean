import Leaderboard.Proofs.Tree.Walk
import Mathlib.Logic.Relation

/-!
# Walks in circles

The stack of a walk is limited, so a walk cannot go down for ever.  But it takes a
node off the stack before it goes on to the subtree behind the node.  So it follows
the pointers to later subtrees as far as they go, and if they lead around in a circle
it gives the same entries again and again.

`Memory.Circles` says so of the nodes alone, whatever they are.  `Walk.Leads` says
that a walk gives some entries on its way from one place to another, and what comes
of the walk is these entries and what comes of the rest of the way.  So a walk that
comes to a circle gives entries without end (`Walk.drained_of_circles`).
-/

namespace Leaderboard

/-! ## Circles -/

namespace Memory

/-- A walk with some room on its stack gets through the subtree at a pointer. -/
inductive Completes (m : Memory) (o : Order) : Nat → NodeRef → Prop
  /-- There is no subtree. -/
  | none (room : Nat) : Completes m o room none
  /-- The node is on the stack while the walk is in the subtree before it, and no more
  while it is in the one after it. -/
  | node {room : Nat} {k : RankKey} {n : Node} (hn : m k = some n)
      (hbefore : Completes m o room (n.child o.before))
      (hafter : Completes m o (room + 1) (n.child o.after)) : Completes m o (room + 1) (some k)

/-- A walk that starts at a pointer comes to another one, with some room on its stack. -/
inductive Comes (m : Memory) (o : Order) (top : NodeRef) : Nat → NodeRef → Prop
  /-- The stack is empty at the start. -/
  | top : Comes m o top Walk.maxDepth top
  /-- The subtree before a node is next to it. -/
  | before {room : Nat} {k : RankKey} {n : Node} (h : Comes m o top (room + 1) (some k))
      (hn : m k = some n) : Comes m o top room (n.child o.before)
  /-- To the subtree after a node a walk comes only through the one before it. -/
  | after {room : Nat} {k : RankKey} {n : Node} (h : Comes m o top (room + 1) (some k))
      (hn : m k = some n) (hbefore : m.Completes o room (n.child o.before)) :
      Comes m o top (room + 1) (n.child o.after)

/-- From one node a walk goes on at another one, with the same nodes on its stack. -/
def Onward (m : Memory) (o : Order) (room : Nat) (i j : RankKey) : Prop :=
  ∃ n, m i = some n ∧ m.Completes o room (n.child o.before) ∧ n.child o.after = some j

/-- A walk that starts at a pointer comes to a node from which it gets around to the same node, with
the same nodes on its stack. -/
def Circles (m : Memory) (o : Order) (top : NodeRef) : Prop :=
  ∃ room k, m.Comes o top (room + 1) (some k) ∧ Relation.TransGen (m.Onward o room) k k

/-- A node has another one at the top of the subtree after it. -/
def Later (m : Memory) (o : Order) (i j : RankKey) : Prop :=
  ∃ n, m i = some n ∧ n.child o.after = some j

theorem Onward.later {m : Memory} {o : Order} {room : Nat} {i j : RankKey}
    (h : m.Onward o room i j) : m.Later o i j := by
  obtain ⟨n, hn, -, hj⟩ := h
  exact ⟨n, hn, hj⟩

/-- On a circle there are pointers to later subtrees only. -/
theorem Circles.later {m : Memory} {o : Order} {top : NodeRef} (h : m.Circles o top) :
    ∃ k, Relation.TransGen (m.Later o) k k := by
  obtain ⟨room, k, -, hround⟩ := h
  exact ⟨k, hround.lift id fun _ _ => Onward.later⟩

end Memory

open WalkM (Gives gives_pure gives_get gives_set gives_modify gives_ask)

namespace Walk

variable {t : Tree} {c : Contents} {w w' w'' : Walk} {ps qs : List Placement}

/-! ## The outcome of a walk -/

/-- What comes of a walk up to the end that may take some calls of `next`. -/
def drained (t : Tree) (c : Contents) (calls : Nat) (w : Walk) : Except Failure (List Placement) :=
  (Dialogue.eval ((drain t calls).run.run w) c).1.1

theorem drained_congr
    (h : Dialogue.eval ((next t).run.run w) c = Dialogue.eval ((next t).run.run w') c)
    (calls : Nat) : drained t c calls w = drained t c calls w' := by
  cases calls with
  | zero => rfl
  | succ calls => rw [drained, drained, drain, WalkM.eval_bind_congr h]

theorem drained_of_gives_none (h : Gives c (next t) w none w') (calls : Nat) :
    drained t c (calls + 1) w = .ok [] := by
  rw [drained, drain, h.eval_bind]
  rfl

theorem drained_of_gives_some {e : Placement} (h : Gives c (next t) w (some e) w') (calls : Nat) :
    drained t c (calls + 1) w = (drained t c calls w').map (e :: ·) := by
  rw [drained, drain, h.eval_bind]
  exact WalkM.eval_map _ _

theorem drained_of_error {failure : Failure}
    (h : Dialogue.eval ((next t).run.run w) c = ((.error failure, w'), [])) (calls : Nat) :
    drained t c (calls + 1) w = .error failure := by
  rw [drained, drain, WalkM.eval_bind_error h]

/-! ## Places of a walk -/

/-- A walk has been started and is at a pointer, with some room on its stack. -/
structure At (o : Order) (room : Nat) (ref : NodeRef) (w : Walk) : Prop where
  /-- Its order. -/
  order : w.order = o
  /-- The pointer to the root has been read. -/
  started : w.started = true
  /-- The pointer. -/
  cursor : w.cursor = ref
  /-- As many more nodes fit on the stack. -/
  room : w.stack.length + room = maxDepth

/-- The place in the subtree before a node. -/
def push (w : Walk) (k : RankKey) (n : Node) : Walk :=
  { w with cursor := n.child w.order.before, stack := (k, n) :: w.stack }

/-- The place behind what is at the cursor. -/
def skip (w : Walk) : Walk := { w with cursor := none }

/-- The place in the subtree after a node. -/
def leave (w : Walk) (n : Node) : Walk := { w with cursor := n.child w.order.after }

variable {o : Order} {room : Nat} {ref : NodeRef} {k : RankKey} {n : Node}

theorem At.push (h : At o (room + 1) (some k) w) (n : Node) :
    At o room (n.child o.before) (w.push k n) := by
  refine ⟨h.order, h.started, by rw [← h.order]; rfl, ?_⟩
  have hroom := h.room
  simp only [Walk.push, List.length_cons]
  omega

theorem At.leave (h : At o (room + 1) (some k) w) (n : Node) :
    At o (room + 1) (n.child o.after) (w.leave n) :=
  ⟨h.order, h.started, by rw [← h.order]; rfl, h.room⟩

theorem At.skip (h : At o room ref w) : At o room none w.skip :=
  ⟨h.order, h.started, rfl, h.room⟩

/-- A call of `next` goes down as far as there is room. -/
theorem next_eval (h : At o room ref w) :
    Dialogue.eval ((next t).run.run w) c =
      Dialogue.eval ((descend t room >>= fun _ => pop).run.run w) c := by
  have hroom : room = maxDepth - w.stack.length := by
    have := h.room
    omega
  rw [hroom]
  exact ((start_gives h.started).eval_bind _).trans (gives_get.eval_bind _)

/-- A call of `next` at a node is one in the subtree before it. -/
theorem next_push (h : At o (room + 1) (some k) w) (hn : t.stored c k = some n) :
    Dialogue.eval ((next t).run.run w) c = Dialogue.eval ((next t).run.run (w.push k n)) c := by
  rw [next_eval h, next_eval (h.push n)]
  refine WalkM.eval_bind_congr ?_ _
  rw [descend, gives_get.eval_bind, h.cursor]
  exact ((gives_ask (Tree.load_eval hn)).eval_bind _).trans ((gives_modify _).eval_bind _)

/-- A call of `next` behind the subtree before a node gives the entry of the node. -/
theorem next_leave (h : At o (room + 1) (some k) w) (n : Node) :
    Gives c (next t) (w.push k n).skip (some (k, n.payload)) (w.leave n) := by
  rw [Gives, next_eval (h.push n).skip]
  refine (descend_gives_of_none rfl _).bind (gives_get.bind ?_)
  exact (gives_set _).bind (gives_pure _)

/-! ## Steps of a walk -/

/-- A walk gives some entries on its way from one place to another. -/
def Leads (t : Tree) (c : Contents) (w : Walk) (ps : List Placement) (w' : Walk) : Prop :=
  ∀ calls, drained t c calls w = (drained t c (calls - ps.length) w').map (ps ++ ·)

theorem leads_refl (w : Walk) : Leads t c w [] w := by
  intro calls
  cases drained t c calls w <;> rfl

theorem Leads.trans (h : Leads t c w ps w') (h' : Leads t c w' qs w'') :
    Leads t c w (ps ++ qs) w'' := by
  intro calls
  rw [h, h', List.length_append, Nat.sub_sub]
  cases drained t c (calls - (ps.length + qs.length)) w'' with
  | ok rs => simp [Except.map]
  | error failure => rfl

theorem leads_push (h : At o (room + 1) (some k) w) (hn : t.stored c k = some n) :
    Leads t c w [] (w.push k n) := by
  intro calls
  rw [drained_congr (next_push h hn)]
  exact leads_refl _ calls

theorem leads_leave (h : At o (room + 1) (some k) w) (n : Node) :
    Leads t c (w.push k n).skip [(k, n.payload)] (w.leave n) := by
  intro calls
  cases calls with
  | zero => rfl
  | succ calls => exact drained_of_gives_some (next_leave h n) calls

/-- From a node, a walk that gets through the subtree before it leads to the one after it. -/
theorem Leads.node (h : At o (room + 1) (some k) w) (hn : t.stored c k = some n)
    (hps : Leads t c (w.push k n) ps (w.push k n).skip) :
    Leads t c w (ps ++ [(k, n.payload)]) (w.leave n) :=
  (leads_push h hn).trans (hps.trans (leads_leave h n))

/-- A walk that gets through a subtree leads to the place behind it. -/
theorem leads_of_completes (hcompletes : (t.stored c).Completes o room ref) (h : At o room ref w) :
    ∃ ps, Leads t c w ps w.skip := by
  induction hcompletes generalizing w with
  | none room =>
      refine ⟨[], ?_⟩
      rw [skip, ← h.cursor]
      exact leads_refl w
  | node hn _ _ ihbefore ihafter =>
      obtain ⟨ps, hps⟩ := ihbefore (h.push _)
      obtain ⟨qs, hqs⟩ := ihafter (h.leave _)
      exact ⟨_, (Leads.node h hn hps).trans hqs⟩

/-- A walk leads to every place it comes to. -/
theorem leads_of_comes {top : NodeRef} (hcomes : (t.stored c).Comes o top room ref)
    (h : At o maxDepth top w) : ∃ ps w', Leads t c w ps w' ∧ At o room ref w' := by
  induction hcomes with
  | top => exact ⟨[], w, leads_refl w, h⟩
  | before _ hn ih =>
      obtain ⟨ps, w', hps, h'⟩ := ih
      exact ⟨_, _, hps.trans (leads_push h' hn), h'.push _⟩
  | after _ hn hbefore ih =>
      obtain ⟨ps, w', hps, h'⟩ := ih
      obtain ⟨qs, hqs⟩ := leads_of_completes hbefore (h'.push _)
      exact ⟨_, _, hps.trans (Leads.node h' hn hqs), h'.leave _⟩

/-- Going onward, a walk gives the entry of the node at least. -/
theorem leads_of_onward {i j : RankKey} (honward : (t.stored c).Onward o room i j)
    (h : At o (room + 1) (some i) w) :
    ∃ ps, ps ≠ [] ∧ Leads t c w ps { w with cursor := some j } := by
  obtain ⟨n, hn, hbefore, hj⟩ := honward
  obtain ⟨ps, hps⟩ := leads_of_completes hbefore (h.push n)
  refine ⟨ps ++ [(i, n.payload)], by simp, ?_⟩
  rw [← hj, ← h.order]
  exact Leads.node h hn hps

theorem leads_of_round {i j : RankKey}
    (hround : Relation.TransGen ((t.stored c).Onward o room) i j)
    (h : At o (room + 1) (some i) w) :
    ∃ ps, ps ≠ [] ∧ Leads t c w ps { w with cursor := some j } := by
  induction hround with
  | single honward => exact leads_of_onward honward h
  | @tail j _ _ honward ih =>
      obtain ⟨ps, hne, hps⟩ := ih
      have h' : At o (room + 1) (some j) { w with cursor := some j } :=
        ⟨h.order, h.started, rfl, h.room⟩
      obtain ⟨qs, -, hqs⟩ := leads_of_onward honward h'
      exact ⟨ps ++ qs, by simp [hne], hps.trans hqs⟩

/-- A walk that leads back to where it is gives entries without end. -/
theorem Leads.endless (h : Leads t c w ps w) (hne : ps ≠ []) (calls : Nat) :
    drained t c calls w = .error t.endless := by
  induction calls using Nat.strongRecOn with
  | ind calls ih =>
      cases calls with
      | zero => rfl
      | succ calls =>
          have hlength : 0 < ps.length := List.length_pos_iff.mpr hne
          rw [h, ih (calls + 1 - ps.length) (by omega)]
          rfl

theorem drained_of_circles {top : NodeRef} (hcircles : (t.stored c).Circles o top)
    (h : At o maxDepth top w) (calls : Nat) : drained t c calls w = .error t.endless := by
  obtain ⟨room, k, hcomes, hround⟩ := hcircles
  obtain ⟨ps, w', hps, h'⟩ := leads_of_comes hcomes h
  obtain ⟨qs, hne, hqs⟩ := leads_of_round hround h'
  rw [← h'.cursor] at hqs
  rw [hps, hqs.endless hne]
  rfl

end Walk

end Leaderboard
