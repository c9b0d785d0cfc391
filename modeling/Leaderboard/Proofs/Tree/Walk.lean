import Leaderboard.Proofs.Tree.Standing
import Leaderboard.Tree.Walk

/-!
# What a walk comes to

`Walk.Ahead` says of a walk on given contents which entries are still ahead.
They are the ones of the subtree at the cursor, and then for each node on the
stack its own and those of the subtree after it.  Each call of `Walk.next` gives
the first one and leaves the others ahead (`Walk.next_gives`).

So on contents that hold a tree not too high for a walk, `Tree.entries` lists
the entries and `Tree.topEntries` the last ones backward
(`Tree.entries_eval`, `Tree.topEntries_eval`).
-/

namespace Leaderboard

/-! ## The order of a visit -/

theorem Order.other_before (o : Order) : o.before.other = o.after := by
  cases o <;> rfl

/-- The entries of a tree in the order of a walk. -/
def Avl.visit (o : Order) (x : Avl) : List Placement :=
  match o with
  | .ascending => x.entries
  | .descending => x.entries.reverse

theorem Avl.visit_nil (o : Order) : nil.visit o = [] := by
  cases o <;> rfl

theorem Avl.visit_fork (o : Order) (x : Avl) (k : RankKey) (p : String) (y : Avl) :
    (fork o.before x k p y).visit o = x.visit o ++ (k, p) :: y.visit o := by
  cases o with
  | ascending => rfl
  | descending => simp [visit, fork, Order.before]

/-! ## Actions of a walk -/

/-- On these contents an action succeeds without a put, and takes one walk to
another. -/
def WalkM.Gives {α : Type} (c : Contents) (m : WalkM α) (w : Walk) (a : α) (w' : Walk) : Prop :=
  Dialogue.eval (m.run.run w) c = ((.ok a, w'), [])

namespace WalkM

variable {α β : Type} {c : Contents} {w w' w'' : Walk}

theorem gives_pure (a : α) : Gives c (pure a) w a w := rfl

theorem run_bind (m : WalkM α) (f : α → WalkM β) (w : Walk) :
    (m >>= f).run.run w = m.run.run w >>= fun p => (ExceptT.bindCont f p.1).run p.2 := rfl

/-- An action that gives an answer is followed by what it is bound to. -/
theorem Gives.eval_bind {m : WalkM α} {a : α} (h : Gives c m w a w') (f : α → WalkM β) :
    Dialogue.eval ((m >>= f).run.run w) c = Dialogue.eval ((f a).run.run w') c := by
  rw [Gives] at h
  rw [run_bind, Dialogue.eval_bind, h]
  rfl

theorem eval_bind_congr {m m' : WalkM α}
    (h : Dialogue.eval (m.run.run w) c = Dialogue.eval (m'.run.run w') c) (f : α → WalkM β) :
    Dialogue.eval ((m >>= f).run.run w) c = Dialogue.eval ((m' >>= f).run.run w') c := by
  rw [run_bind, run_bind, Dialogue.eval_bind, Dialogue.eval_bind, h]

theorem eval_bind_error {m : WalkM α} {failure : Failure}
    (h : Dialogue.eval (m.run.run w) c = ((.error failure, w'), [])) (f : α → WalkM β) :
    Dialogue.eval ((m >>= f).run.run w) c = ((.error failure, w'), []) := by
  rw [run_bind, Dialogue.eval_bind, h]
  rfl

theorem Gives.bind {m : WalkM α} {f : α → WalkM β} {a : α} {b : β} (h : Gives c m w a w')
    (h' : Gives c (f a) w' b w'') : Gives c (m >>= f) w b w'' :=
  (h.eval_bind f).trans h'

/-- If two actions in sequence succeed, both do. -/
theorem Gives.of_bind {m : WalkM α} {f : α → WalkM β} {b : β} (h : Gives c (m >>= f) w b w'') :
    ∃ a w', Gives c m w a w' ∧ Gives c (f a) w' b w'' := by
  rw [Gives, run_bind, Dialogue.eval_bind] at h
  obtain ⟨⟨⟨reply, w'⟩, puts⟩, hm⟩ : ∃ p, Dialogue.eval (m.run.run w) c = p := ⟨_, rfl⟩
  rw [hm, Prod.mk.injEq, List.append_eq_nil_iff] at h
  obtain ⟨hf, rfl, hputs⟩ := h
  cases reply with
  | ok a => exact ⟨a, w', hm, Prod.ext hf hputs⟩
  | error failure => cases hf

theorem Gives.map {m : WalkM α} {a : α} (h : Gives c m w a w') (f : α → β) :
    Gives c (f <$> m) w (f a) w' := by
  rw [map_eq_pure_bind]
  exact h.bind (gives_pure _)

theorem eval_map (m : WalkM α) (f : α → β) :
    (Dialogue.eval ((f <$> m).run.run w) c).1.1 = (Dialogue.eval (m.run.run w) c).1.1.map f := by
  rw [map_eq_pure_bind, run_bind, Dialogue.eval_bind]
  rcases Dialogue.eval (m.run.run w) c with ⟨⟨reply, w'⟩, puts⟩
  cases reply <;> rfl

theorem gives_get : Gives c get w w w := rfl

theorem gives_set (w' : Walk) : Gives c (set w') w () w' := rfl

theorem gives_modify (f : Walk → Walk) : Gives c (modify f : WalkM Unit) w () (f w) := rfl

theorem eval_ask {access : Access α} {reply : Except Failure α}
    (h : access.eval c = (reply, [])) :
    Dialogue.eval ((Walk.ask access).run.run w) c = ((reply, w), []) := by
  rw [Access.eval] at h
  rw [Walk.run_ask, Dialogue.eval_bind, h]
  rfl

theorem gives_ask {access : Access α} {a : α} (h : access.eval c = (.ok a, [])) :
    Gives c (Walk.ask access) w a w := eval_ask h

end WalkM

open WalkM (Gives gives_pure gives_get gives_set gives_modify gives_ask)

namespace Walk

variable (t : Tree) (c : Contents)

/-! ## What is ahead -/

/-- The entries ahead on a stack: those of each node and of the subtree after it,
which is not too high to be walked through. -/
def Stacked (o : Order) : List (RankKey × Node) → List Placement → Prop
  | [], ps => ps = []
  | (k, n) :: stack, ps =>
      ∃ (y : Avl) (qs : List Placement), n.child o.after = y.root ∧ y.Stands (t.stored c) ∧
        y.height + stack.length ≤ maxDepth ∧ Stacked o stack qs ∧
        ps = (k, n.payload) :: y.visit o ++ qs

/-- The entries ahead of a walk that was started. -/
def Placed (w : Walk) (ps : List Placement) : Prop :=
  w.started = true ∧ ∃ (x : Avl) (qs : List Placement), w.cursor = x.root ∧
    x.Stands (t.stored c) ∧ x.height + w.stack.length ≤ maxDepth ∧
    Stacked t c w.order w.stack qs ∧ ps = x.visit w.order ++ qs

/-- The entries ahead of a walk, once it is started. -/
def Ahead (w : Walk) (ps : List Placement) : Prop :=
  ∃ w', Gives c (start t) w () w' ∧ Placed t c w' ps

variable {t c}

theorem descend_gives_of_none {w : Walk} (h : w.cursor = none) (fuel : Nat) :
    Gives c (descend t fuel) w () w := by
  rw [descend]
  refine gives_get.bind ?_
  rw [h]
  exact gives_pure ()

/-- Going down puts the first node on top of the stack. -/
theorem descend_gives {x : Avl} {w : Walk} {qs : List Placement} (hcursor : w.cursor = x.root)
    (hx : x.Stands (t.stored c)) (fuel : Nat) (hfuel : x.height ≤ fuel)
    (hdepth : x.height + w.stack.length ≤ maxDepth) (hstack : Stacked t c w.order w.stack qs) :
    ∃ w', Gives c (descend t fuel) w () w' ∧ w'.cursor = none ∧ w'.order = w.order ∧
      w'.started = w.started ∧ w'.stack.length ≤ maxDepth ∧
      Stacked t c w.order w'.stack (x.visit w.order ++ qs) := by
  induction fuel generalizing x w qs with
  | zero =>
      rw [Avl.eq_nil_of_height (Nat.le_zero.mp hfuel)] at hcursor ⊢
      refine ⟨w, descend_gives_of_none hcursor 0, hcursor, rfl, rfl, by omega, ?_⟩
      rw [Avl.visit_nil]
      exact hstack
  | succ fuel ih =>
      by_cases hheight : x.height = 0
      · rw [Avl.eq_nil_of_height hheight] at hcursor ⊢
        refine ⟨w, descend_gives_of_none hcursor _, hcursor, rfl, rfl, by omega, ?_⟩
        rw [Avl.visit_nil]
        exact hstack
      · obtain ⟨a, k, p, b, rfl⟩ := Avl.exists_fork w.order.before hheight
        obtain ⟨⟨n, hn, hp, ha, hb, -⟩, hsa, hsb⟩ := Avl.stands_fork.mp hx
        rw [Avl.height_fork] at hfuel hdepth
        rw [Order.other_before] at hb
        let w₁ : Walk := { w with cursor := n.child w.order.before, stack := (k, n) :: w.stack }
        have hstack₁ : Stacked t c w₁.order w₁.stack ((k, p) :: b.visit w.order ++ qs) :=
          ⟨b, qs, hb, hsb, by omega, hstack, by rw [hp]⟩
        obtain ⟨w', hdescend, hw', ho, hstarted, hlength, hstacked⟩ :=
          ih (w := w₁) ha hsa (by omega) (by rw [List.length_cons]; omega) hstack₁
        refine ⟨w', ?_, hw', ho, hstarted, hlength, ?_⟩
        · rw [descend]
          refine gives_get.bind ?_
          rw [hcursor, Avl.root_fork]
          exact (gives_ask (Tree.load_eval hn)).bind ((gives_modify _).bind hdescend)
        · rw [Avl.visit_fork, List.append_assoc]
          exact hstacked

/-- Taking the top off a stack gives the first entry ahead. -/
theorem pop_gives {w : Walk} {ps : List Placement} (hstarted : w.started = true)
    (hcursor : w.cursor = none) (hlength : w.stack.length ≤ maxDepth)
    (h : Stacked t c w.order w.stack ps) :
    ∃ w', Gives c pop w ps.head? w' ∧ Placed t c w' ps.tail := by
  cases hstack : w.stack with
  | nil =>
      rw [hstack] at h
      cases h
      refine ⟨w, gives_get.bind ?_, hstarted, .nil, [], hcursor, trivial, ?_, ?_, ?_⟩
      · rw [hstack]
        exact gives_pure none
      · rw [Avl.height_nil]
        omega
      · rw [hstack]
        rfl
      · rw [Avl.visit_nil]
        rfl
  | cons top stack =>
      obtain ⟨k, n⟩ := top
      rw [hstack] at h
      obtain ⟨y, qs, hy, hsy, hdepth, hstacked, rfl⟩ := h
      refine ⟨{ w with stack, cursor := n.child w.order.after }, gives_get.bind ?_, hstarted,
        y, qs, hy, hsy, hdepth, hstacked, rfl⟩
      rw [hstack]
      exact (gives_set _).bind (gives_pure _)

/-- A walk that was started is not started again. -/
theorem start_gives {w : Walk} (h : w.started = true) : Gives c (start t) w () w := by
  refine gives_get.bind ?_
  rw [h]
  exact gives_pure ()

/-- Reading a node gives the stored one, and leaves the walk as it is. -/
theorem load_of_gives {w w' : Walk} {key : RankKey} {n : Node}
    (h : Gives c (ask (t.load key)) w n w') : w' = w ∧ t.stored c key = some n := by
  rcases Tree.load_cases t c key with ⟨n', hn, hload⟩ | ⟨-, failure, -, hload⟩
  · rw [Gives, WalkM.eval_ask hload] at h
    cases h
    exact ⟨rfl, hn⟩
  · rw [Gives, WalkM.eval_ask hload] at h
    cases h

theorem Placed.ahead {w : Walk} {ps : List Placement} (h : Placed t c w ps) : Ahead t c w ps :=
  ⟨w, start_gives h.1, h⟩

/-- A call of `next` gives the first entry ahead, and the others stay ahead. -/
theorem next_gives {w : Walk} {ps : List Placement} (h : Ahead t c w ps) :
    ∃ w', Gives c (next t) w ps.head? w' ∧ Ahead t c w' ps.tail := by
  obtain ⟨w₁, hstart, hstarted, x, qs, hcursor, hx, hdepth, hstack, rfl⟩ := h
  obtain ⟨w₂, hdescend, hcursor₂, ho, hstarted₂, hlength, hstack₂⟩ :=
    descend_gives hcursor hx (maxDepth - w₁.stack.length) (by omega) hdepth hstack
  rw [← ho] at hstack₂ ⊢
  obtain ⟨w₃, hpop, hplaced⟩ := pop_gives (hstarted₂.trans hstarted) hcursor₂ hlength hstack₂
  exact ⟨w₃, hstart.bind (gives_get.bind (hdescend.bind hpop)), hplaced.ahead⟩

theorem take_gives {w : Walk} {ps : List Placement} (h : Ahead t c w ps) (n : Nat) :
    ∃ w', Gives c (take t n) w (ps.take n) w' := by
  induction n generalizing w ps with
  | zero => exact ⟨w, gives_pure []⟩
  | succ n ih =>
      obtain ⟨w₁, hnext, hahead⟩ := next_gives h
      cases ps with
      | nil => exact ⟨w₁, hnext.bind (gives_pure [])⟩
      | cons e ps =>
          obtain ⟨w₂, htake⟩ := ih hahead
          exact ⟨w₂, hnext.bind (htake.map (e :: ·))⟩

theorem drain_gives {w : Walk} {ps : List Placement} (h : Ahead t c w ps) {n : Nat}
    (hn : ps.length < n) : ∃ w', Gives c (drain t n) w ps w' := by
  induction n generalizing w ps with
  | zero => omega
  | succ n ih =>
      obtain ⟨w₁, hnext, hahead⟩ := next_gives h
      cases ps with
      | nil => exact ⟨w₁, hnext.bind (gives_pure [])⟩
      | cons e ps =>
          rw [List.length_cons] at hn
          obtain ⟨w₂, hdrain⟩ := ih hahead (by rw [List.tail_cons]; omega)
          exact ⟨w₂, hnext.bind (hdrain.map (e :: ·))⟩

/-- All entries are ahead of a new walk. -/
theorem ahead_new {x : Avl} (h : t.Valid c x) (hheight : x.height ≤ maxDepth) (order : Order) :
    Ahead t c { order } (x.visit order) := by
  have hroot := gives_ask (w := { order }) (Tree.root_eval h.1.points h.2)
  refine ⟨{ order, cursor := x.root, started := true },
    gives_get.bind (hroot.bind (gives_modify _)), rfl, x, [], rfl, h.1.stands, hheight, rfl, ?_⟩
  rw [List.append_nil]

/-- A walk does not start if the pointer to the root cannot be read. -/
theorem next_eval_of_error {t : Tree} {c : Contents} {failure : Failure}
    (hroot : t.root.eval c = (.error failure, [])) (order : Order) :
    Dialogue.eval ((next t).run.run { order }) c = ((.error failure, { order }), []) := by
  have hstart : Dialogue.eval ((start t).run.run { order }) c =
      ((.error failure, { order }), []) := by
    rw [start, gives_get.eval_bind]
    exact WalkM.eval_bind_error (WalkM.eval_ask hroot) _
  exact WalkM.eval_bind_error hstart _

theorem eval_along {α : Type} (order : Order) (action : WalkM α) (c : Contents) :
    (along order action).eval c = ((Dialogue.eval (action.run.run { order }) c).1.1,
      (Dialogue.eval (action.run.run { order }) c).2) := by
  rw [Access.eval, run_along, Dialogue.eval_bind]
  exact congrArg (Prod.mk _) (List.append_nil _)

theorem along_eval {α : Type} {order : Order} {action : WalkM α} {a : α} {w : Walk}
    (h : Gives c action { order } a w) : (along order action).eval c = (.ok a, []) := by
  rw [eval_along, h]

end Walk

namespace Tree

variable {t : Tree} {c : Contents} {x : Avl}

/-- The entries with the largest keys, the largest first. -/
theorem topEntries_eval (h : t.Valid c x) (hheight : x.height ≤ Walk.maxDepth) (n : Nat) :
    (t.topEntries n).eval c = (.ok (x.entries.reverse.take n), []) := by
  obtain ⟨w, htake⟩ := Walk.take_gives (Walk.ahead_new h hheight .descending) n
  exact Walk.along_eval htake

theorem top_eval (h : t.Valid c x) (hheight : x.height ≤ Walk.maxDepth) (n : Nat) :
    (t.top n).eval c = (.ok ((x.entries.reverse.take n).map Prod.snd), []) := by
  rw [top, Access.eval_bind_read (topEntries_eval h hheight n)]
  rfl

/-- The entries, the smallest key first. -/
theorem entries_eval (h : t.Valid c x) (hheight : x.height ≤ Walk.maxDepth)
    (hreach : x.entries.length < t.reach) : t.entries.eval c = (.ok x.entries, []) := by
  obtain ⟨w, hdrain⟩ := Walk.drain_gives (Walk.ahead_new h hheight .ascending) hreach
  exact Walk.along_eval hdrain

/-- There are none to be had if the pointer to the root cannot be read. -/
theorem entries_eval_of_error {failure : Failure} (hroot : t.root.eval c = (.error failure, []))
    (hreach : 0 < t.reach) : t.entries.eval c = (.error failure, []) := by
  obtain ⟨n, hn⟩ : ∃ n, t.reach = n + 1 := Nat.exists_eq_add_one.mpr hreach
  rw [entries, Walk.eval_along, hn, Walk.drain,
    WalkM.eval_bind_error (Walk.next_eval_of_error hroot .ascending)]

end Tree

end Leaderboard
