import Leaderboard.Proofs.Avl.Subtree
import Leaderboard.Proofs.Tree.Descent

/-!
# Mixtures of two trees

When a change breaks off, the nodes below some key are those of the tree after it and
the others are those of the tree before it.  A way down such a `Mixture` may change
between the two trees again and again: from a low node of the new tree it turns right
to a high node, and from a high node of the old tree it turns left to a low one.

It does not come back to a node if it meets no pair of nodes that have changed sides
(`Mixture.Parted`): a low node that the old tree has below a high one and the new tree
above it.  Then each low node from which it leaves the new tree is further down that
tree than the one before (`Mixture.mem_keys_below`), so that the way ends
(`Mixture.ends`).
-/

namespace Leaderboard

namespace Avl

variable {m old : Memory} {turn : RankKey → Option Side}

theorem Stands.subtree {x : Avl} (h : x.Stands m) (key : RankKey) : (x.subtree key).Stands m := by
  induction x with
  | nil => trivial
  | node l k p r ihl ihr =>
      obtain ⟨-, hl, hr⟩ := id h
      rw [Avl.subtree]
      cases compare key k with
      | lt => exact ihl hl
      | eq => exact h
      | gt => exact ihr hr

/-- A way ends at a node or in the subtree that it turns to. -/
theorem ends_fork {s : Side} {near : Avl} {k : RankKey} {p : String} {far : Avl} {n : Nat}
    (h : (fork s near k p far).Stands old) (hk : m k = old k ∨ m k = none)
    (hturn : turn k = some s) (hnear : m.Ends turn n near.root) :
    m.Ends turn (n + 1) (some k) := by
  obtain ⟨⟨node, hnode, -, hchild, -⟩, -, -⟩ := stands_fork.mp h
  rcases hk with hk | hk
  · intro node' side' hn' hs'
    rw [hk, hnode] at hn'
    cases hn'
    rw [hturn] at hs'
    cases hs'
    rw [hchild]
    exact hnear
  · exact Memory.ends_of_none hk n

/-- A way that starts on top of a tree ends in it, or where it leaves it. -/
theorem ends_through {x : Avl} (h : x.Stands old) {n : Nat}
    (hkeys : ∀ k ∈ x.keys, m k = old k ∨ m k = none ∨ m.Ends turn n (some k)) :
    m.Ends turn (x.height + n) x.root := by
  induction x with
  | nil => cases nil.height + n <;> trivial
  | node l k p r ihl ihr =>
      rw [keys_node] at hkeys
      have hl := ihl h.2.1 fun j hj => hkeys j (List.mem_append_left _ hj)
      have hr := ihr h.2.2 fun j hj => hkeys j (List.mem_append_right _ (.tail _ hj))
      have hsum : 1 + max l.height r.height + n = max l.height r.height + n + 1 := by omega
      rw [height_node, root, hsum]
      have hends : (m k = old k ∨ m k = none) →
          m.Ends turn (max l.height r.height + n + 1) (some k) := by
        intro hk
        cases hturn : turn k with
        | none =>
            intro node side _ hside
            rw [hturn] at hside
            cases hside
        | some side =>
            cases side with
            | left => exact ends_fork (s := .left) h hk hturn (hl.mono (by omega))
            | right => exact ends_fork (s := .right) h hk hturn (hr.mono (by omega))
      rcases hkeys k (by simp) with hk | hk | hk
      · exact hends (.inl hk)
      · exact hends (.inr hk)
      · exact hk.mono (by omega)

end Avl

/-- A memory has the nodes of a new tree at the low keys and else those of an old one, some of
which may be missing. -/
structure Mixture (m old new : Memory) (x x' : Avl) (Low : RankKey → Prop) : Prop where
  /-- A key below a low one is low. -/
  low_of_lt : ∀ {a b : RankKey}, a < b → Low b → Low a
  /-- The old tree. -/
  stands : x.Stands old
  /-- Its keys increase from left to right. -/
  ordered : x.Ordered
  /-- It is as low as a balanced tree. -/
  height_le : x.height ≤ Avl.maxHeight
  /-- The new tree. -/
  stands' : x'.Stands new
  /-- Its keys increase from left to right. -/
  ordered' : x'.Ordered
  /-- It is as low as a balanced tree. -/
  height_le' : x'.height ≤ Avl.maxHeight
  /-- The low nodes of the new tree. -/
  new_eq : ∀ k ∈ x'.keys, Low k → m k = new k
  /-- The other nodes of the old tree. -/
  old_eq : ∀ k ∈ x.keys, (Low k → k ∉ x'.keys) → m k = old k ∨ m k = none
  /-- The high nodes that only the new tree has are missing. -/
  none_eq : ∀ k ∈ x'.keys, k ∉ x.keys → ¬ Low k → m k = none

namespace Mixture

variable {m old new : Memory} {x x' : Avl} {Low : RankKey → Prop} {turn : RankKey → Option Side}

/-- A way meets no low node on the left and no high node on the right of it that have changed
sides: first the high one was above, then the low one is. -/
def Parted (x x' : Avl) (Low : RankKey → Prop) (turn : RankKey → Option Side) : Prop :=
  ∀ a b, Low a → turn a = some .right → ¬ Low b → turn b = some .left →
    a ∈ (x.subtree b).keys → b ∉ (x'.subtree a).keys

/-- The number of nodes that a way passes at most. -/
def depth : Nat := (2 * Avl.maxHeight + 3) * Avl.maxHeight

/-- The pointers lead from nodes of the two trees to such nodes. -/
theorem child_mem_keys (h : Mixture m old new x x' Low) {k j : RankKey} {n : Node} {side : Side}
    (hk : k ∈ x.keys ∨ k ∈ x'.keys) (hn : m k = some n) (hj : n.child side = some j) :
    j ∈ x.keys ∨ j ∈ x'.keys := by
  by_cases hnew : Low k ∧ k ∈ x'.keys
  · obtain ⟨hlow, hk'⟩ := hnew
    rw [h.new_eq k hk' hlow] at hn
    exact .inr (h.stands'.links.child_mem_keys hk' hn hj)
  · rw [not_and] at hnew
    by_cases hold : k ∈ x.keys
    · rcases h.old_eq k hold hnew with hk | hk
      · rw [hk] at hn
        exact .inl (h.stands.links.child_mem_keys hold hn hj)
      · rw [hk] at hn
        cases hn
    · have hk' := hk.resolve_left hold
      rw [h.none_eq k hk' hold fun hlow => hnew hlow hk'] at hn
      cases hn

/-! ## In one of the two trees -/

/-- From a high node of the old tree a way to the right ends in that tree. -/
theorem ends_right (h : Mixture m old new x x' Low) {b : RankKey} (hb : b ∈ x.keys)
    (hhigh : ¬ Low b) (hturn : turn b = some .right) :
    m.Ends turn Avl.maxHeight (some b) := by
  obtain ⟨l, p, r, hsub⟩ := Avl.subtree_of_mem h.ordered hb
  have hstands := h.stands.subtree b
  have hordered := h.ordered.subtree b
  have hheight := (Avl.height_subtree_le b x).trans h.height_le
  rw [hsub] at hstands hordered hheight
  rw [Avl.height_node] at hheight
  obtain ⟨-, -, -, hbr⟩ := Avl.ordered_node.mp hordered
  have hr : m.Ends turn (r.height + 0) r.root := by
    refine Avl.ends_through hstands.2.2 fun k hk => ?_
    have hkx : k ∈ x.keys := Avl.mem_keys_of_subtree (j := b) (by rw [hsub]; simp [hk])
    have hkhigh : ¬ Low k := fun hlow => hhigh (h.low_of_lt (hbr k hk) hlow)
    exact (h.old_eq k hkx fun hlow => absurd hlow hkhigh).imp_right .inl
  exact (Avl.ends_fork (s := .right) hstands (h.old_eq b hb fun hlow => absurd hlow hhigh) hturn
    hr).mono (by omega)

/-- From a low node of the new tree a way to the left ends in that tree. -/
theorem ends_left (h : Mixture m old new x x' Low) {a : RankKey} (ha : a ∈ x'.keys)
    (hlow : Low a) (hturn : turn a = some .left) : m.Ends turn Avl.maxHeight (some a) := by
  obtain ⟨l, p, r, hsub⟩ := Avl.subtree_of_mem h.ordered' ha
  have hstands := h.stands'.subtree a
  have hordered := h.ordered'.subtree a
  have hheight := (Avl.height_subtree_le a x').trans h.height_le'
  rw [hsub] at hstands hordered hheight
  rw [Avl.height_node] at hheight
  obtain ⟨-, -, hla, -⟩ := Avl.ordered_node.mp hordered
  have hl : m.Ends turn (l.height + 0) l.root := by
    refine Avl.ends_through hstands.2.1 fun k hk => .inl ?_
    have hkx : k ∈ x'.keys := Avl.mem_keys_of_subtree (j := a) (by rw [hsub]; simp [hk])
    exact h.new_eq k hkx (h.low_of_lt (hla k hk) hlow)
  exact (Avl.ends_fork (s := .left) hstands (.inl (h.new_eq a ha hlow)) hturn hl).mono (by omega)

/-- A way ends where it takes no turn. -/
theorem ends_of_turn_none {k : RankKey} (hturn : turn k = none) {n : Nat}
    (hn : Avl.maxHeight ≤ n) : m.Ends turn n (some k) := by
  cases n with
  | zero => exact absurd hn (by decide)
  | succ n =>
      intro node side _ hside
      rw [hturn] at hside
      cases hside

/-! ## From tree to tree -/

/-- From a node of the new tree a way ends if it does from the high nodes below where it turns
left. -/
theorem ends_new (h : Mixture m old new x x' Low) {a : RankKey} (ha : a ∈ x'.keys) {n : Nat}
    (hn : Avl.maxHeight ≤ n)
    (hhigh : ∀ b ∈ (x'.subtree a).keys, ¬ Low b → turn b = some .left → m.Ends turn n (some b)) :
    m.Ends turn (Avl.maxHeight + n) (some a) := by
  have hends : m.Ends turn ((x'.subtree a).height + n) (x'.subtree a).root := by
    refine Avl.ends_through (h.stands'.subtree a) fun k hk => ?_
    have hkx := Avl.mem_keys_of_subtree hk
    by_cases hlow : Low k
    · exact .inl (h.new_eq k hkx hlow)
    · by_cases hold : k ∈ x.keys
      · refine .inr (.inr ?_)
        cases hturn : turn k with
        | none => exact ends_of_turn_none hturn hn
        | some side =>
            cases side with
            | left => exact hhigh k hk hlow hturn
            | right => exact (h.ends_right hold hlow hturn).mono hn
      · exact .inr (.inl (h.none_eq k hkx hold hlow))
  rw [Avl.root_subtree h.ordered' ha] at hends
  exact hends.mono (Nat.add_le_add_right ((Avl.height_subtree_le a x').trans h.height_le') n)

/-- From a node of the old tree a way ends if it does from the low nodes below where it turns
right. -/
theorem ends_old (h : Mixture m old new x x' Low) {b : RankKey} (hb : b ∈ x.keys) {n : Nat}
    (hn : Avl.maxHeight ≤ n)
    (hlow : ∀ a ∈ (x.subtree b).keys, a ∈ x'.keys → Low a → turn a = some .right →
      m.Ends turn n (some a)) :
    m.Ends turn (Avl.maxHeight + n) (some b) := by
  have hends : m.Ends turn ((x.subtree b).height + n) (x.subtree b).root := by
    refine Avl.ends_through (h.stands.subtree b) fun k hk => ?_
    have hkx := Avl.mem_keys_of_subtree hk
    by_cases hnew : Low k ∧ k ∈ x'.keys
    · refine .inr (.inr ?_)
      obtain ⟨hklow, hk'⟩ := hnew
      cases hturn : turn k with
      | none => exact ends_of_turn_none hturn hn
      | some side =>
          cases side with
          | left => exact (h.ends_left hk' hklow hturn).mono hn
          | right => exact hlow k hk hk' hklow hturn
    · rw [not_and] at hnew
      exact (h.old_eq k hkx hnew).imp_right .inl
  rw [Avl.root_subtree h.ordered hb] at hends
  exact hends.mono (Nat.add_le_add_right ((Avl.height_subtree_le b x).trans h.height_le) n)

/-- A low key is below a high one. -/
theorem lt_of_low (h : Mixture m old new x x' Low) {a b : RankKey} (ha : Low a) (hb : ¬ Low b) :
    a < b := by
  have hne : a.ordinal ≠ b.ordinal := fun heq => hb (RankKey.ordinal_inj.mp heq ▸ ha)
  have hlt : ¬ b < a := fun hlt => hb (h.low_of_lt hlt ha)
  rw [RankKey.lt_iff] at hlt ⊢
  omega

/-- If each of two low nodes has a high node below it in the new tree, and the second one does not
have that of the first one, then the second one is itself below the first one. -/
theorem mem_keys_below (h : Mixture m old new x x' Low) {a b a₂ b₂ : RankKey} (ha : a ∈ x'.keys)
    (hlow : Low a) (hb : b ∈ (x'.subtree a).keys) (hhigh : ¬ Low b) (ha₂ : a₂ ∈ x'.keys)
    (hlow₂ : Low a₂) (hb₂ : b₂ ∈ (x'.subtree a₂).keys) (hhigh₂ : ¬ Low b₂)
    (haway : b ∉ (x'.subtree a₂).keys) : a₂ ∈ (x'.subtree a).keys ∧ a₂ ≠ a := by
  have hne : a₂ ≠ a := by
    rintro rfl
    exact haway hb
  refine ⟨?_, hne⟩
  by_cases hlt : a < a₂
  · -- between the first low node and its high one
    exact Avl.mem_keys_subtree_of_between h.ordered' (Avl.mem_keys_subtree_self h.ordered' ha) hb
      ha₂ hlt (h.lt_of_low hlow₂ hhigh)
  · -- else the first low node is between the second one and the high one there
    have hlt₂ : a₂ < a := by
      rw [ne_eq, ← RankKey.ordinal_inj] at hne
      rw [RankKey.lt_iff] at hlt ⊢
      omega
    have hbelow : a ∈ (x'.subtree a₂).keys :=
      Avl.mem_keys_subtree_of_between h.ordered' (Avl.mem_keys_subtree_self h.ordered' ha₂) hb₂ ha
        hlt₂ (h.lt_of_low hlow hhigh₂)
    exact absurd (Avl.mem_keys_subtree_trans h.ordered' hbelow hb) haway

/-- Below a low node of the new tree a way ends from the high nodes where it turns left.  It comes
back to low nodes where it turns right only further down the new tree. -/
theorem ends_below (h : Mixture m old new x x' Low) (hparted : Parted x x' Low turn) (n : Nat)
    {a b : RankKey} (hn : (x'.subtree a).height ≤ n) (ha : a ∈ x'.keys) (hlow : Low a)
    (hb : b ∈ (x'.subtree a).keys) (hhigh : ¬ Low b) (hleft : turn b = some .left) :
    m.Ends turn ((2 * n + 1) * Avl.maxHeight) (some b) := by
  induction n generalizing a b with
  | zero =>
      rw [Avl.eq_nil_of_height (Nat.le_zero.mp hn)] at hb
      cases hb
  | succ n ih =>
      have hbound : ∀ k : Nat, Avl.maxHeight ≤ (k + 1) * Avl.maxHeight :=
        fun k => Nat.le_mul_of_pos_left _ (Nat.succ_pos k)
      have hsum : (2 * (n + 1) + 1) * Avl.maxHeight =
          Avl.maxHeight + (Avl.maxHeight + (2 * n + 1) * Avl.maxHeight) := by ring
      by_cases hold : b ∈ x.keys
      · rw [hsum]
        refine h.ends_old hold (Nat.le_add_right _ _) fun a₂ ha₂ ha₂' hlow₂ hright₂ => ?_
        refine h.ends_new ha₂' (hbound _) fun b₂ hb₂ hhigh₂ hleft₂ => ?_
        -- the way has left the new tree again, further down
        have haway := hparted a₂ b hlow₂ hright₂ hhigh hleft ha₂
        obtain ⟨hmem, hne⟩ := h.mem_keys_below ha hlow hb hhigh ha₂' hlow₂ hb₂ hhigh₂ haway
        have hlower := Avl.height_subtree_lt h.ordered' hmem hne
        exact ih (by omega) ha₂' hlow₂ hb₂ hhigh₂ hleft₂
      · have hmissing := h.none_eq b (Avl.mem_keys_of_subtree hb) hold hhigh
        exact (Memory.ends_of_none hmissing 0).mono (Nat.mul_pos (by omega) (by decide))

/-- A way that meets no pair of nodes that have changed sides ends. -/
theorem ends (h : Mixture m old new x x' Low) (hparted : Parted x x' Low turn) {k : RankKey}
    (hk : k ∈ x.keys ∨ k ∈ x'.keys) : m.Ends turn depth (some k) := by
  -- from a low node of the new tree
  have hnew : ∀ a ∈ x'.keys, Low a →
      m.Ends turn (Avl.maxHeight + (2 * Avl.maxHeight + 1) * Avl.maxHeight) (some a) := by
    intro a ha hlow
    cases hturn : turn a with
    | none => exact ends_of_turn_none hturn (Nat.le_add_right _ _)
    | some side =>
        cases side with
        | left => exact (h.ends_left ha hlow hturn).mono (Nat.le_add_right _ _)
        | right =>
            exact h.ends_new ha (by decide) fun b hb hhigh hleft =>
              h.ends_below hparted _ ((Avl.height_subtree_le a x').trans h.height_le') ha hlow hb
                hhigh hleft
  by_cases hold : k ∈ x.keys
  · have hends : m.Ends turn (Avl.maxHeight +
        (Avl.maxHeight + (2 * Avl.maxHeight + 1) * Avl.maxHeight)) (some k) :=
      h.ends_old hold (Nat.le_add_right _ _) fun a _ ha hlow _ => hnew a ha hlow
    exact hends.mono (by decide)
  · have hk' := hk.resolve_left hold
    by_cases hlow : Low k
    · exact (hnew k hk' hlow).mono (by decide)
    · exact (Memory.ends_of_none (h.none_eq k hk' hold hlow) 0).mono (by decide)

end Mixture

end Leaderboard
