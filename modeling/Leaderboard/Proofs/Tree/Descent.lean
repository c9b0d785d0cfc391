import Leaderboard.Proofs.Tree.Flush
import Leaderboard.Proofs.Tree.Steady

/-!
# Ways down any records

The only loops of a tree are its ways down: toward a key, and, when a node with two
children is deleted, to the left.  `Memory.Ends` says that such a way ends, whatever
the records are: at a node where it takes no turn, at a missing node, or at a missing
child.

If all the ways that an operation may take end (`Tree.Passable`), then a search, an
insert and a delete end (`Tree.Passable.search_stops`, `insert_stops` and
`delete_stops`): they may fail, but not as an endless loop does.
-/

namespace Leaderboard

open Session (Evolves)
open SessionM (Gives gives_get gives_pure)

/-! ## Ways down a memory -/

/-- The side on which the way down toward a key leaves a node, unless it has come there. -/
def RankKey.turn (key here : RankKey) : Option Side :=
  match compare key here with
  | .lt => some .left
  | .eq => none
  | .gt => some .right

/-- The way down a memory that takes some turns comes to an end after at most `n` nodes. -/
def Memory.Ends (m : Memory) (turn : RankKey → Option Side) : Nat → NodeRef → Prop
  | _, none => True
  | 0, some _ => False
  | n + 1, some k =>
      ∀ node side, m k = some node → turn k = some side → Ends m turn n (node.child side)

namespace Memory

variable {m : Memory} {turn : RankKey → Option Side}

theorem Ends.mono {n n' : Nat} {ref : NodeRef} (h : m.Ends turn n ref) (hle : n ≤ n') :
    m.Ends turn n' ref := by
  induction n generalizing n' ref with
  | zero =>
      cases ref with
      | none => cases n' <;> trivial
      | some k => exact h.elim
  | succ n ih =>
      cases n' with
      | zero => omega
      | succ n' =>
          cases ref with
          | none => trivial
          | some k => exact fun node side hn hs => ih (h node side hn hs) (by omega)

/-- A way ends at a missing node. -/
theorem ends_of_none {k : RankKey} (h : m k = none) (n : Nat) : m.Ends turn (n + 1) (some k) := by
  intro node side hn
  rw [h] at hn
  cases hn

end Memory

/-! ## Operations that end -/

/-- An operation on these contents does not fail as an endless loop does. -/
def Access.Stops {α : Type} (access : Access α) (c : Contents) : Prop :=
  ∀ failure, (access.eval c).1 = .error failure → ¬ failure.Endless

theorem Access.stops_of_ok {α : Type} {access : Access α} {c : Contents} {a : α}
    {puts : List (Bytes × Bytes)} (h : access.eval c = (.ok a, puts)) : access.Stops c := by
  intro failure hf
  rw [h] at hf
  cases hf

theorem Access.stops_of_error {α : Type} {access : Access α} {c : Contents} {failure : Failure}
    {puts : List (Bytes × Bytes)} (h : access.eval c = (.error failure, puts))
    (hf : ¬ failure.Endless) : access.Stops c := by
  intro failure' hf'
  rw [h] at hf'
  cases hf'
  exact hf

/-- An action of a session succeeds in some way, or fails, but not as an endless loop does. -/
def SessionM.Stops {α : Type} (c : Contents) (m : SessionM α) (s : Session)
    (Q : α → Session → Prop) : Prop :=
  (∃ a s', Gives c m s a s' ∧ Q a s') ∨
    ∃ failure, ¬ failure.Endless ∧ Access.eval (m.run s) c = (.error failure, [])

namespace SessionM

variable {α β : Type} {c : Contents} {s : Session} {Q : α → Session → Prop}
  {R : β → Session → Prop}

theorem stops_pure {a : α} (h : Q a s) : Stops c (pure a) s Q := .inl ⟨a, s, gives_pure a, h⟩

theorem stops_get (s : Session) : Stops c get s fun a s' => a = s ∧ s' = s :=
  .inl ⟨s, s, gives_get, rfl, rfl⟩

theorem stops_lift_error {access : Access α} {failure : Failure}
    (h : access.eval c = (.error failure, [])) (hf : ¬ failure.Endless) :
    Stops c (liftM access) s fun _ _ => False :=
  .inr ⟨failure, hf, Access.eval_bind_error h _⟩

theorem Stops.bind {m : SessionM α} {f : α → SessionM β} (h : Stops c m s Q)
    (hf : ∀ a s', Q a s' → Stops c (f a) s' R) : Stops c (m >>= f) s R := by
  rcases h with ⟨a, s', hm, hQ⟩ | ⟨failure, hf', heval⟩
  · rcases hf a s' hQ with ⟨b, s'', hfa, hR⟩ | ⟨failure, hf', heval⟩
    · exact .inl ⟨b, s'', hm.bind hfa, hR⟩
    · refine .inr ⟨failure, hf', ?_⟩
      rw [run_bind, Access.eval_bind_read hm]
      exact heval
  · refine .inr ⟨failure, hf', ?_⟩
    rw [run_bind, Access.eval_bind_error heval]

theorem Stops.mono {m : SessionM α} {Q' : α → Session → Prop} (h : Stops c m s Q)
    (hQ : ∀ a s', Q a s' → Q' a s') : Stops c m s Q' := by
  refine h.imp_left ?_
  rintro ⟨a, s', hm, h⟩
  exact ⟨a, s', hm, hQ a s' h⟩

end SessionM

open SessionM (Stops stops_pure stops_get stops_lift_error)

/-- An action that does not loop stops. -/
theorem Tree.Bounded.stops {α : Type} {m : SessionM α} (h : Bounded m) (c : Contents) {s : Session}
    (hs : s.dirty.Pairwise (· < ·)) :
    Stops c m s fun _ s' => s'.dirty.Pairwise (· < ·) := by
  obtain ⟨outcome, heval, hends⟩ := (h s hs).eval c
  cases outcome with
  | ok p => exact .inl ⟨p.1, p.2, heval, hends⟩
  | error failure => exact .inr ⟨failure, hends, heval⟩

/-- A session that has only read nodes so far. -/
structure Session.Reading (t : Tree) (c : Contents) (s : Session) : Prop where
  /-- It sees the stored nodes. -/
  sees_eq : s.sees t c = t.stored c
  /-- The marked keys are in increasing order. -/
  sorted : s.dirty.Pairwise (· < ·)

namespace Tree

variable {t : Tree} {c : Contents} {s : Session}

theorem reading_empty : Session.Reading t c {} := ⟨Session.sees_empty, List.Pairwise.nil⟩

/-- A session that reads gets the stored node at a key, or finds that there is none. -/
theorem fetch_stops (hs : s.Reading t c) (k : RankKey) :
    Stops c (t.fetch k) s fun n s' => t.stored c k = some n ∧ s'.Reading t c := by
  rcases load_cases t c k with ⟨n, hn, -⟩ | ⟨hnone, failure, hf, hload⟩
  · obtain ⟨s', hfetch, he⟩ := fetch_gives (hs.sees_eq ▸ hn)
    refine .inl ⟨n, s', hfetch, hn, he.sees_same.trans hs.sees_eq, ?_⟩
    exact (bounded_fetch t k).sorted hs.sorted hfetch
  · have hsees := hs.sees_eq ▸ hnone
    rw [Session.sees, Option.or_eq_none_iff] at hsees
    refine (stops_get s).bind ?_
    rintro _ _ ⟨rfl, rfl⟩
    rw [hsees.1]
    exact (stops_lift_error hload hf.not_endless).bind fun _ _ h => h.elim

/-! ## The loops -/

/-- A search ends if the way through the stored nodes does. -/
theorem searchFrom_stops {key : RankKey} {fuel : Nat} {ref : NodeRef}
    (h : (t.stored c).Ends key.turn fuel ref) : (t.searchFrom key fuel ref).Stops c := by
  induction fuel generalizing ref with
  | zero =>
      cases ref with
      | none => exact Access.stops_of_ok rfl
      | some here => exact h.elim
  | succ fuel ih =>
      cases ref with
      | none => exact Access.stops_of_ok rfl
      | some here =>
          rw [searchFrom]
          rcases load_cases t c here with ⟨n, hn, hload⟩ | ⟨-, failure, hf, hload⟩
          · rw [Access.Stops, Access.eval_bind_read hload]
            cases hc : compare key here with
            | eq => exact Access.stops_of_ok rfl
            | lt => exact ih (h n .left hn (by rw [RankKey.turn, hc]))
            | gt => exact ih (h n .right hn (by rw [RankKey.turn, hc]))
          · exact Access.stops_of_error (Access.eval_bind_error hload _) hf.not_endless

/-- Pointers lead from some keys to such keys only. -/
def Closed (t : Tree) (c : Contents) (K : RankKey → Prop) : Prop :=
  ∀ k n side j, K k → t.stored c k = some n → n.child side = some j → K j

/-- The way down toward a key ends if the way through the stored nodes does.  It ends among the
keys that it started from. -/
theorem descend_stops {key : RankKey} {K : RankKey → Prop} (hclosed : t.Closed c K) {fuel : Nat}
    {ref : NodeRef} (href : ∀ k ∈ ref, K k) (h : (t.stored c).Ends key.turn fuel ref)
    (hs : s.Reading t c) (path : Path) :
    Stops c (t.descend key fuel ref path) s fun place s' =>
      (∀ n ∈ place.2, K key ∧ t.stored c key = some n) ∧ s'.Reading t c := by
  induction fuel generalizing ref s path with
  | zero =>
      cases ref with
      | none => exact stops_pure ⟨by simp, hs⟩
      | some here => exact h.elim
  | succ fuel ih =>
      cases ref with
      | none => exact stops_pure ⟨by simp, hs⟩
      | some here =>
          have hhere : K here := href here rfl
          rw [descend]
          refine (fetch_stops hs here).bind fun n s' ⟨hn, hs'⟩ => ?_
          have hchild : ∀ side, key.turn here = some side →
              (∀ k ∈ n.child side, K k) ∧ (t.stored c).Ends key.turn fuel (n.child side) :=
            fun side hside => ⟨fun k hk => hclosed here n side k hhere hn hk, h n side hn hside⟩
          cases hc : compare key here with
          | eq =>
              have hkey : key = here := Std.LawfulEqOrd.eq_of_compare hc
              refine stops_pure ⟨fun n' hn' => ?_, hs'⟩
              cases hn'
              exact hkey ▸ ⟨hhere, hn⟩
          | lt =>
              obtain ⟨hK, hends⟩ := hchild .left (by rw [RankKey.turn, hc])
              exact ih hK hends hs' _
          | gt =>
              obtain ⟨hK, hends⟩ := hchild .right (by rw [RankKey.turn, hc])
              exact ih hK hends hs' _

/-- The way down to the left ends if the way through the stored nodes does. -/
theorem leftmost_stops {fuel : Nat} {here : RankKey}
    (h : (t.stored c).Ends (fun _ => some .left) fuel (some here)) (hs : s.Reading t c)
    (passed : List RankKey) :
    Stops c (t.leftmost fuel here passed) s fun _ s' => s'.Reading t c := by
  induction fuel generalizing here s passed with
  | zero => exact h.elim
  | succ fuel ih =>
      rw [leftmost]
      refine (fetch_stops hs here).bind fun n s' ⟨hn, hs'⟩ => ?_
      have hleft := h n .left hn rfl
      rw [Node.child] at hleft
      cases hl : n.left with
      | none => exact stops_pure hs'
      | some next =>
          rw [hl] at hleft
          exact ih hleft hs' _

theorem splice_stops {target : Node} (hs : s.Reading t c)
    (h : ∀ right ∈ target.right, (t.stored c).Ends (fun _ => some .left) t.reach (some right))
    (path : Path) :
    Stops c (t.splice target path) s fun _ s' => s'.dirty.Pairwise (· < ·) := by
  cases hl : target.left with
  | none =>
      rw [splice, hl]
      cases target.right <;> exact stops_pure hs.sorted
  | some left =>
      cases hr : target.right with
      | none =>
          rw [splice, hl, hr]
          exact stops_pure hs.sorted
      | some right =>
          rw [splice_eq t hl hr]
          exact (leftmost_stops (h right hr) hs []).bind fun place s' hs' =>
            Bounded.stops (t.bounded_closed.relink _ _ _ place) c hs'.sorted

/-! ## Whole operations -/

/-- From some keys the pointers lead to such keys only, and the ways down toward a key and to the
left end. -/
structure Passable (t : Tree) (c : Contents) (key : RankKey) (K : RankKey → Prop) : Prop where
  /-- The pointers lead to such keys. -/
  closed : t.Closed c K
  /-- The ways down toward the key end. -/
  ends : ∀ k, K k → (t.stored c).Ends key.turn t.reach (some k)
  /-- The ways down to the left end. -/
  ends_left : ∀ k, K k → (t.stored c).Ends (fun _ => some .left) t.reach (some k)
  /-- The pointer to the root leads to such a key. -/
  root : ∀ k, t.PointsTo c (some k) → K k

namespace Passable

variable {key : RankKey} {K : RankKey → Prop}

/-- An operation that starts from the root ends if it does so from a pointer that its ways
end from. -/
theorem stops_bind {α : Type} {f : NodeRef → Access α} (h : t.Passable c key K)
    (hf : ∀ ref, (∀ k ∈ ref, K k) → (t.stored c).Ends key.turn t.reach ref →
      (f ref).Stops c) : (t.root >>= f).Stops c := by
  rcases root_cases t c with ⟨ref, hpoints, -, hroot⟩ | ⟨failure, hfailure, hroot⟩
  · rw [Access.Stops, Access.eval_bind_read hroot]
    cases ref with
    | none => exact hf none (by simp) (by cases t.reach <;> trivial)
    | some k =>
        have hk : K k := h.root k hpoints
        refine hf (some k) (fun j hj => ?_) (h.ends k hk)
        cases hj
        exact hk
  · exact Access.stops_of_error (Access.eval_bind_error hroot f) hfailure.not_endless

theorem search_stops (h : t.Passable c key K) : (t.search key).Stops c :=
  h.stops_bind fun _ _ hends => searchFrom_stops hends

/-- A change ends if its session does. -/
theorem stops_conclude {m : NodeRef → SessionM (Option NodeRef)} (h : t.Passable c key K)
    (hm : ∀ ref, (∀ k ∈ ref, K k) → (t.stored c).Ends key.turn t.reach ref →
      Stops c (m ref) {} fun _ _ => True) :
    (do
      let root ← t.root
      t.conclude root (← (m root).run {})).Stops c := by
  refine h.stops_bind fun ref hK hends => ?_
  rcases hm ref hK hends with ⟨newRoot, s, hgives, -⟩ | ⟨failure, hf, heval⟩
  · rw [Access.Stops, Access.eval_bind_read hgives]
    cases newRoot with
    | none => exact Access.stops_of_ok rfl
    | some newRoot => exact Access.stops_of_ok (Access.eval_bind (flush_eval ..) _)
  · exact Access.stops_of_error (Access.eval_bind_error heval _) hf

theorem insert_stops (h : t.Passable c key K) (payload : String) :
    (t.insert key payload).Stops c := by
  rw [insert_eq]
  refine h.stops_conclude fun ref hK hends => ?_
  refine (descend_stops h.closed hK hends reading_empty []).bind fun place s ⟨_, hs⟩ => ?_
  obtain ⟨path, target⟩ := place
  cases target with
  | some n => exact stops_pure trivial
  | none =>
      refine Stops.mono (Bounded.stops ?_ c hs.sorted) fun _ _ _ => trivial
      exact (bounded_store _ _).bind fun _ =>
        t.bounded_closed.map (t.bounded_closed.rebuild _ _) some

theorem delete_stops (h : t.Passable c key K) : (t.delete key).Stops c := by
  rw [delete_eq]
  refine h.stops_conclude fun ref hK hends => ?_
  refine (descend_stops h.closed hK hends reading_empty []).bind fun place s ⟨htarget, hs⟩ => ?_
  obtain ⟨path, target⟩ := place
  cases target with
  | none => exact stops_pure trivial
  | some n =>
      obtain ⟨hkey, hstored⟩ := htarget n rfl
      refine (splice_stops hs (fun right hright => ?_) path).bind fun place s' hs' => ?_
      · exact h.ends_left right (h.closed key n .right right hkey hstored hright)
      · refine Stops.mono (Bounded.stops ?_ c hs') fun _ _ _ => trivial
        exact (bounded_discard key).bind fun _ =>
          t.bounded_closed.map (t.bounded_closed.rebuild _ _) some

end Passable

end Tree

end Leaderboard
