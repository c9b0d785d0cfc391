import Leaderboard.Proofs.Tree.Standing

/-!
# What a session does

A session sees a memory: its own nodes, and behind them those of the store
(`Session.sees`).  `SessionM.Gives` says what an action of a session comes to on
given contents, when it succeeds and puts nothing.

Every action of a session is described by what it gives and by
`Session.Evolves`: only the nodes at some given keys change, each change is
marked, nothing is removed, and the session stays sound.  A session is sound if
an unmarked node in memory is the stored one, so that writing back the marked
nodes is enough.
-/

namespace Leaderboard

/-! ## Actions of a session -/

/-- On these contents an action succeeds without a put, and takes one session to
another. -/
def SessionM.Gives {α : Type} (c : Contents) (m : SessionM α) (s : Session) (a : α)
    (s' : Session) : Prop :=
  Access.eval (m.run s) c = (.ok (a, s'), [])

namespace SessionM

variable {α β : Type} {c : Contents} {s s' s'' : Session}

theorem gives_pure (a : α) : Gives c (pure a) s a s := rfl

theorem run_bind (m : SessionM α) (f : α → SessionM β) (s : Session) :
    (m >>= f).run s = m.run s >>= fun p => (f p.1).run p.2 := rfl

theorem Gives.bind {m : SessionM α} {f : α → SessionM β} {a : α} {b : β}
    (h : Gives c m s a s') (h' : Gives c (f a) s' b s'') : Gives c (m >>= f) s b s'' := by
  rw [Gives, run_bind, Access.eval_bind_read h]
  exact h'

theorem Gives.map {m : SessionM α} {a : α} (h : Gives c m s a s') (f : α → β) :
    Gives c (f <$> m) s (f a) s' := by
  rw [map_eq_pure_bind]
  exact h.bind (gives_pure _)

theorem gives_get : Gives c get s s s := rfl

theorem gives_modify (f : Session → Session) :
    Gives c (modify f : SessionM Unit) s () (f s) := rfl

theorem gives_lift {access : Access α} {a : α} (h : access.eval c = (.ok a, [])) :
    Gives c (liftM access) s a s := by
  have hrun : (liftM access : SessionM α).run s = access >>= fun a => pure (a, s) := rfl
  rw [Gives, hrun, Access.eval_bind_read h]
  rfl

end SessionM

open SessionM (Gives gives_pure gives_get gives_modify gives_lift)

/-! ## What a session sees -/

theorem RankKey.mem_insertInto {key k : RankKey} {ks : List RankKey} :
    k ∈ key.insertInto ks ↔ k = key ∨ k ∈ ks := by
  induction ks with
  | nil => simp [insertInto]
  | cons j ks ih =>
      rw [insertInto]
      cases hc : compare key j with
      | lt => simp
      | eq =>
          have hj : key = j := Std.LawfulEqOrd.eq_of_compare hc
          simp [hj]
      | gt =>
          simp only [List.mem_cons, ih]
          constructor
          · rintro (h | h | h)
            · exact .inr (.inl h)
            · exact .inl h
            · exact .inr (.inr h)
          · rintro (h | h | h)
            · exact .inr (.inl h)
            · exact .inl h
            · exact .inr (.inr h)

namespace Session

variable (t : Tree) (c : Contents)

/-- The nodes that a session sees: its own, and behind them those of the store. -/
def sees (s : Session) : Memory := fun k => s.nodes[k]?.or (t.stored c k)

/-- A session whose unmarked nodes are the stored ones, and whose nodes can be
written. -/
structure Sound (s : Session) : Prop where
  /-- An unmarked node is the stored one. -/
  clean : ∀ {k : RankKey} {n : Node}, s.nodes[k]? = some n → k ∉ s.dirty → t.stored c k = some n
  /-- The payload of a node fits in its length field. -/
  fits : ∀ {k : RankKey} {n : Node}, s.nodes[k]? = some n → Codec.Fits n.payload
  /-- A marked node is in memory. -/
  present : ∀ {k : RankKey}, k ∈ s.dirty → ∃ n, s.nodes[k]? = some n

/-- Between two sessions only the nodes at some keys change. -/
structure Evolves (keys : List RankKey) (s s' : Session) : Prop where
  /-- The other nodes are seen as before. -/
  sees_eq : ∀ k ∉ keys, s'.sees t c k = s.sees t c k
  /-- No node is marked beside those. -/
  dirty_of : ∀ k ∈ s'.dirty, k ∈ s.dirty ∨ k ∈ keys
  /-- Nothing is removed. -/
  removed_eq : s'.removed = s.removed
  /-- A sound session stays sound. -/
  sound : s.Sound t c → s'.Sound t c

variable {t c} {s s' s'' : Session}

theorem sees_of_node {k : RankKey} {n : Node} (h : s.nodes[k]? = some n) :
    s.sees t c k = some n := by
  simp [sees, h]

theorem sees_empty : Session.sees t c {} = t.stored c := by
  funext k
  simp [sees]

theorem sound_empty : Session.Sound t c {} where
  clean h := by simp at h
  fits h := by simp at h
  present h := by simp at h

theorem Sound.fits_of_sees (h : s.Sound t c) {k : RankKey} {n : Node}
    (hn : s.sees t c k = some n) : Codec.Fits n.payload := by
  rw [sees, Option.or_eq_some_iff] at hn
  rcases hn with hn | ⟨-, hn⟩
  · exact h.fits hn
  · exact Tree.fits_of_stored hn

namespace Evolves

variable {keys keys' : List RankKey}

theorem refl (keys : List RankKey) (s : Session) : Evolves t c keys s s where
  sees_eq _ _ := rfl
  dirty_of _ h := .inl h
  removed_eq := rfl
  sound h := h

theorem mono (h : Evolves t c keys s s') (hk : ∀ k ∈ keys, k ∈ keys') :
    Evolves t c keys' s s' where
  sees_eq k hk' := h.sees_eq k fun hin => hk' (hk k hin)
  dirty_of k hd := (h.dirty_of k hd).imp_right (hk k)
  removed_eq := h.removed_eq
  sound := h.sound

theorem trans (h : Evolves t c keys s s') (h' : Evolves t c keys s' s'') :
    Evolves t c keys s s'' where
  sees_eq k hk := (h'.sees_eq k hk).trans (h.sees_eq k hk)
  dirty_of k hd := by
    rcases h'.dirty_of k hd with hd | hin
    · exact h.dirty_of k hd
    · exact .inr hin
  removed_eq := h'.removed_eq.trans h.removed_eq
  sound hs := h'.sound (h.sound hs)

/-- A session that evolves at no key sees the same nodes. -/
theorem sees_same (h : Evolves t c [] s s') : s'.sees t c = s.sees t c := by
  funext k
  exact h.sees_eq k (by simp)

/-- A tree stands as before if it has none of the keys. -/
theorem stands (h : Evolves t c keys s s') {x : Avl} (hx : x.Stands (s.sees t c))
    (hk : ∀ k ∈ x.keys, k ∉ keys) : x.Stands (s'.sees t c) :=
  hx.congr fun k hkx => h.sees_eq k (hk k hkx)

/-- A tree stands as before if it does not have the only key. -/
theorem stands_of_notMem {k : RankKey} (h : Evolves t c [k] s s') {x : Avl}
    (hx : x.Stands (s.sees t c)) (hk : k ∉ x.keys) : x.Stands (s'.sees t c) := by
  refine h.stands hx fun j hj hjk => ?_
  rw [List.mem_singleton] at hjk
  exact hk (hjk ▸ hj)

/-- A way down is as before if it has none of the keys. -/
theorem frames (h : Evolves t c keys s s') {fs : List Avl.Frame}
    (hfs : ∀ f ∈ fs, f.Leans (s.sees t c))
    (hk : ∀ f ∈ fs, f.key ∉ keys ∧ ∀ k ∈ f.sibling.keys, k ∉ keys) :
    ∀ f ∈ fs, f.Leans (s'.sees t c) :=
  Avl.frames_congr h.sees_eq hfs hk

theorem sees_some (h : Evolves t c keys s s') {k : RankKey} {n : Node}
    (hn : s.sees t c k = some n) (hk : k ∉ keys) : s'.sees t c k = some n :=
  (h.sees_eq k hk).trans hn

end Evolves

end Session

open Session (Evolves)

namespace Tree

variable {t : Tree} {c : Contents} {s : Session}

/-! ## Reading and changing one node -/

theorem fetch_gives {k : RankKey} {n : Node} (h : s.sees t c k = some n) :
    ∃ s', Gives c (t.fetch k) s n s' ∧ Evolves t c [] s s' := by
  unfold fetch
  cases hn : s.nodes[k]? with
  | some n' =>
      have hn' := Session.sees_of_node (t := t) (c := c) hn
      rw [h] at hn'
      cases hn'
      refine ⟨s, gives_get.bind ?_, .refl _ _⟩
      rw [hn]
      exact gives_pure n
  | none =>
      have hstored : t.stored c k = some n := by
        simpa [Session.sees, hn] using h
      refine ⟨{ s with nodes := s.nodes.insert k n }, gives_get.bind ?_, ?_⟩
      · rw [hn]
        exact (gives_lift (load_eval hstored)).bind ((gives_modify _).bind (gives_pure n))
      · refine ⟨?_, fun j hj => .inl hj, rfl, fun hs => ⟨?_, ?_, ?_⟩⟩
        · intro j _
          simp only [Session.sees, getElem?_insert]
          split
          next hj =>
            subst hj
            rw [hn, hstored]
            rfl
          next => rfl
        · intro j m hm hd
          rw [getElem?_insert] at hm
          split at hm
          next hj =>
            subst hj
            exact hstored.trans hm
          next => exact hs.clean hm hd
        · intro j m hm
          rw [getElem?_insert] at hm
          split at hm
          next =>
            cases hm
            exact fits_of_stored hstored
          next => exact hs.fits hm
        · intro j hj
          rw [getElem?_insert]
          split
          · exact ⟨n, rfl⟩
          · exact hs.present hj

theorem store_gives (k : RankKey) {n : Node} (hn : s.Sound t c → Codec.Fits n.payload) :
    ∃ s', Gives c (store k n) s () s' ∧ Evolves t c [k] s s' ∧ s'.sees t c k = some n := by
  refine ⟨_, gives_modify _, ⟨?_, ?_, rfl, fun hs => ⟨?_, ?_, ?_⟩⟩,
    Session.sees_of_node (by rw [getElem?_insert, if_pos rfl])⟩
  · intro j hj
    have hne : ¬ k = j := fun h => hj (by rw [h]; exact .head _)
    rw [Session.sees, getElem?_insert, if_neg hne]
    rfl
  · intro j hj
    rcases RankKey.mem_insertInto.mp hj with rfl | hj
    · exact .inr (.head _)
    · exact .inl hj
  · intro j m hm hd
    rw [RankKey.mem_insertInto, not_or] at hd
    rw [getElem?_insert, if_neg fun h => hd.1 h.symm] at hm
    exact hs.clean hm hd.2
  · intro j m hm
    rw [getElem?_insert] at hm
    split at hm
    next =>
      cases hm
      exact hn hs
    next => exact hs.fits hm
  · intro j hj
    rw [getElem?_insert]
    split
    next => exact ⟨n, rfl⟩
    next hne =>
      rcases RankKey.mem_insertInto.mp hj with h | h
      · exact absurd h.symm hne
      · exact hs.present h

theorem discard_gives (key : RankKey) (s : Session) :
    ∃ s', Gives c (discard key) s () s' ∧ s'.removed = s.removed ++ [key] ∧
      (∀ k ∈ s'.dirty, k ∈ s.dirty ∧ k ≠ key) ∧
      (∀ k ∉ [key], s'.sees t c k = s.sees t c k) ∧ (s.Sound t c → s'.Sound t c) := by
  have herase : ∀ j, (s.nodes.erase key)[j]? = if key = j then none else s.nodes[j]? := by
    intro j
    simp only [Std.TreeMap.getElem?_erase, Std.LawfulEqOrd.compare_eq_iff_eq]
  refine ⟨_, gives_modify _, rfl, ?_, ?_, fun hs => ⟨?_, ?_, ?_⟩⟩
  · intro k hk
    obtain ⟨hdirty, hne⟩ := List.mem_filter.mp hk
    exact ⟨hdirty, of_decide_eq_true hne⟩
  · intro k hk
    rw [List.mem_singleton] at hk
    rw [Session.sees, herase, if_neg (Ne.symm hk)]
    rfl
  · intro j m hm hd
    rw [herase] at hm
    split at hm
    next => cases hm
    next hj =>
      refine hs.clean hm fun hdirty => hd ?_
      exact List.mem_filter.mpr ⟨hdirty, by simpa using Ne.symm hj⟩
  · intro j m hm
    rw [herase] at hm
    split at hm
    next => cases hm
    next => exact hs.fits hm
  · intro j hj
    obtain ⟨hdirty, hne⟩ := List.mem_filter.mp hj
    rw [herase, if_neg fun h => of_decide_eq_true hne h.symm]
    exact hs.present hdirty

theorem setChild_gives {k : RankKey} {n : Node} (h : s.sees t c k = some n) (side : Side)
    (child : NodeRef) :
    ∃ s', Gives c (t.setChild k side child) s () s' ∧ Evolves t c [k] s s' ∧
      s'.sees t c k = some (n.setChild side child) := by
  obtain ⟨s₁, hfetch, he₁⟩ := fetch_gives h
  have hn : s₁.sees t c k = some n := he₁.sees_some h (by simp)
  by_cases hc : n.child side = child
  · refine ⟨s₁, hfetch.bind ?_, he₁.mono (by simp), ?_⟩
    · rw [if_neg (not_not_intro hc)]
      exact gives_pure ()
    · rw [← hc, Node.setChild_child]
      exact hn
  · have hfits : s₁.Sound t c → Codec.Fits (n.setChild side child).payload := by
      intro hs
      rw [Node.payload_setChild]
      exact hs.fits_of_sees hn
    obtain ⟨s₂, hstore, he₂, hn₂⟩ := store_gives (t := t) (c := c) (s := s₁) k hfits
    refine ⟨s₂, hfetch.bind ?_, (he₁.mono (by simp)).trans he₂, hn₂⟩
    rw [if_pos hc]
    exact hstore

end Tree

end Leaderboard
