import Leaderboard.Proofs.Avl.Basic

/-!
# Subtrees by their keys

`Avl.subtree` is the subtree below a key of a tree.  In a tree in order the keys of
a subtree are next to each other (`Avl.mem_keys_subtree_of_between`), the subtrees
of a subtree are subtrees of the tree (`Avl.subtree_subtree`), and they are lower
(`Avl.height_subtree_lt`).  So there are not more keys on a way down a tree, each
`Avl.Below` the one before, than the tree is high (`Avl.length_le_height`).
-/

namespace Leaderboard

namespace Avl

/-- The subtree below a key, or no tree if the key is not there. -/
def subtree (key : RankKey) : Avl → Avl
  | nil => nil
  | node l k p r =>
      match compare key k with
      | .lt => l.subtree key
      | .eq => node l k p r
      | .gt => r.subtree key

variable {x : Avl} {j k : RankKey}

/-- A subtree is empty or has its key on top. -/
theorem subtree_cases (key : RankKey) (x : Avl) :
    x.subtree key = nil ∨ ∃ l p r, x.subtree key = node l key p r := by
  induction x with
  | nil => exact .inl rfl
  | node l k p r ihl ihr =>
      rw [subtree]
      cases hc : compare key k with
      | lt => exact ihl
      | eq => exact .inr ⟨l, p, r, by rw [Std.LawfulEqOrd.eq_of_compare hc]⟩
      | gt => exact ihr

theorem mem_keys_of_subtree (h : k ∈ (x.subtree j).keys) : k ∈ x.keys := by
  induction x with
  | nil => cases h
  | node l i p r ihl ihr =>
      rw [subtree] at h
      rw [keys_node, List.mem_append, List.mem_cons]
      cases hc : compare j i with
      | lt =>
          rw [hc] at h
          exact .inl (ihl h)
      | eq =>
          rw [hc] at h
          rw [keys_node, List.mem_append, List.mem_cons] at h
          exact h
      | gt =>
          rw [hc] at h
          exact .inr (.inr (ihr h))

theorem height_subtree_le (key : RankKey) (x : Avl) : (x.subtree key).height ≤ x.height := by
  induction x with
  | nil => exact Nat.le_refl _
  | node l k p r ihl ihr =>
      rw [subtree]
      cases compare key k with
      | lt =>
          rw [height_node]
          exact ihl.trans (by omega)
      | eq => exact Nat.le_refl _
      | gt =>
          rw [height_node]
          exact ihr.trans (by omega)

/-! ## Trees in order -/

theorem Ordered.subtree (h : x.Ordered) (key : RankKey) : (x.subtree key).Ordered := by
  induction x with
  | nil => exact h
  | node l k p r ihl ihr =>
      obtain ⟨hl, hr, -, -⟩ := ordered_node.mp h
      rw [Avl.subtree]
      cases compare key k with
      | lt => exact ihl hl
      | eq => exact h
      | gt => exact ihr hr

/-- The subtrees below the keys of a left subtree are in it. -/
theorem subtree_of_mem_left {l : Avl} {p : String} {r : Avl} (h : (node l k p r).Ordered)
    (hj : j ∈ l.keys) : (node l k p r).subtree j = l.subtree j := by
  obtain ⟨-, -, hlk, -⟩ := ordered_node.mp h
  rw [subtree, RankKey.compare_lt.mpr (hlk j hj)]

/-- The subtrees below the keys of a right subtree are in it. -/
theorem subtree_of_mem_right {l : Avl} {p : String} {r : Avl} (h : (node l k p r).Ordered)
    (hj : j ∈ r.keys) : (node l k p r).subtree j = r.subtree j := by
  obtain ⟨-, -, -, hkr⟩ := ordered_node.mp h
  rw [subtree, RankKey.compare_gt.mpr (hkr j hj)]

/-- Below a key of a tree there is a subtree with the key on top. -/
theorem subtree_of_mem (h : x.Ordered) (hk : k ∈ x.keys) :
    ∃ l p r, x.subtree k = node l k p r := by
  induction x with
  | nil => cases hk
  | node l i p r ihl ihr =>
      obtain ⟨hl, hr, -, -⟩ := ordered_node.mp h
      rw [keys_node, List.mem_append, List.mem_cons] at hk
      rcases hk with hk | rfl | hk
      · rw [subtree_of_mem_left h hk]
        exact ihl hl hk
      · exact ⟨l, p, r, by rw [subtree, Std.LawfulEqOrd.compare_eq_iff_eq.mpr rfl]⟩
      · rw [subtree_of_mem_right h hk]
        exact ihr hr hk

theorem root_subtree (h : x.Ordered) (hk : k ∈ x.keys) : (x.subtree k).root = some k := by
  obtain ⟨l, p, r, hx⟩ := subtree_of_mem h hk
  rw [hx, root]

theorem mem_keys_subtree_self (h : x.Ordered) (hk : k ∈ x.keys) : k ∈ (x.subtree k).keys :=
  root_mem_keys (root_subtree h hk)

/-- A subtree of a subtree is one of the tree. -/
theorem subtree_subtree (h : x.Ordered) (hk : k ∈ (x.subtree j).keys) :
    (x.subtree j).subtree k = x.subtree k := by
  induction x with
  | nil => rfl
  | node l i p r ihl ihr =>
      obtain ⟨hl, hr, -, -⟩ := ordered_node.mp h
      cases hc : compare j i with
      | lt =>
          have hsub : (node l i p r).subtree j = l.subtree j := by rw [subtree, hc]
          rw [hsub] at hk ⊢
          rw [subtree_of_mem_left h (mem_keys_of_subtree hk)]
          exact ihl hl hk
      | eq =>
          have hsub : (node l i p r).subtree j = node l i p r := by rw [subtree, hc]
          rw [hsub]
      | gt =>
          have hsub : (node l i p r).subtree j = r.subtree j := by rw [subtree, hc]
          rw [hsub] at hk ⊢
          rw [subtree_of_mem_right h (mem_keys_of_subtree hk)]
          exact ihr hr hk

theorem mem_keys_subtree_trans {i : RankKey} (h : x.Ordered) (hk : k ∈ (x.subtree j).keys)
    (hi : i ∈ (x.subtree k).keys) : i ∈ (x.subtree j).keys := by
  rw [← subtree_subtree h hk] at hi
  exact mem_keys_of_subtree hi

/-- Below another key of a subtree the tree is lower. -/
theorem height_subtree_lt (h : x.Ordered) (hk : k ∈ (x.subtree j).keys) (hne : k ≠ j) :
    (x.subtree k).height < (x.subtree j).height := by
  have ho := h.subtree j
  rw [← subtree_subtree h hk]
  rcases subtree_cases j x with hx | ⟨l, p, r, hx⟩
  · rw [hx] at hk
    cases hk
  · rw [hx] at hk ho ⊢
    rw [keys_node, List.mem_append, List.mem_cons] at hk
    rw [height_node]
    rcases hk with hk | hk | hk
    · rw [subtree_of_mem_left ho hk]
      exact Nat.lt_of_le_of_lt (height_subtree_le k l) (by omega)
    · exact absurd hk hne
    · rw [subtree_of_mem_right ho hk]
      exact Nat.lt_of_le_of_lt (height_subtree_le k r) (by omega)

/-- A key between two keys of a subtree is in it. -/
theorem mem_keys_subtree_of_between {a b : RankKey} (h : x.Ordered) (ha : a ∈ (x.subtree j).keys)
    (hb : b ∈ (x.subtree j).keys) (hk : k ∈ x.keys) (hak : a < k) (hkb : k < b) :
    k ∈ (x.subtree j).keys := by
  induction x with
  | nil => cases hk
  | node l i p r ihl ihr =>
      obtain ⟨hl, hr, hlk, hkr⟩ := ordered_node.mp h
      rw [subtree] at ha hb ⊢
      rw [keys_node, List.mem_append, List.mem_cons] at hk
      cases hc : compare j i with
      | lt =>
          rw [hc] at ha hb
          have hki : k < i := RankKey.lt_trans hkb (hlk b (mem_keys_of_subtree hb))
          rcases hk with hk | rfl | hk
          · exact ihl hl ha hb hk
          · exact absurd hki (RankKey.lt_irrefl k)
          · exact absurd (RankKey.lt_trans hki (hkr k hk)) (RankKey.lt_irrefl k)
      | eq =>
          dsimp only
          rw [keys_node, List.mem_append, List.mem_cons]
          exact hk
      | gt =>
          rw [hc] at ha hb
          have hik : i < k := RankKey.lt_trans (hkr a (mem_keys_of_subtree ha)) hak
          rcases hk with hk | rfl | hk
          · exact absurd (RankKey.lt_trans hik (hlk k hk)) (RankKey.lt_irrefl i)
          · exact absurd hik (RankKey.lt_irrefl k)
          · exact ihr hr ha hb hk

/-! ## Ways down -/

/-- A key is in the subtree below another one. -/
def Below (x : Avl) (j k : RankKey) : Prop := j ∈ (x.subtree k).keys ∧ j ≠ k

theorem Below.height_lt (h : x.Below j k) (ho : x.Ordered) :
    (x.subtree j).height < (x.subtree k).height :=
  height_subtree_lt ho h.1 h.2

theorem Below.trans {i : RankKey} (h : x.Below i j) (h' : x.Below j k) (ho : x.Ordered) :
    x.Below i k := by
  refine ⟨mem_keys_subtree_trans ho h'.1 h.1, ?_⟩
  rintro rfl
  exact Nat.lt_asymm (h.height_lt ho) (h'.height_lt ho)

/-- A way down a tree has at most as many keys as the tree is high. -/
theorem length_le_height (ho : x.Ordered) {ks : List RankKey} (hks : ks.Pairwise x.Below)
    (hmem : ∀ k ∈ ks, k ∈ x.keys) : ks.length ≤ x.height := by
  -- upward along the way, each subtree is higher than the one before
  have hrise : ∀ {ks : List RankKey} {n : Nat}, ks.Pairwise x.Below → n ≤ x.height →
      (∀ k ∈ ks, n < (x.subtree k).height) → n + ks.length ≤ x.height := by
    intro ks
    induction ks with
    | nil => exact fun _ hn _ => hn
    | cons k ks ih =>
        intro n hks _ hlow
        obtain ⟨hk, hks⟩ := List.pairwise_cons.mp hks
        have hrest := ih hks (height_subtree_le k x) fun i hi => (hk i hi).height_lt ho
        have hn := hlow k (.head _)
        rw [List.length_cons]
        omega
  have hpos : ∀ k ∈ ks, 0 < (x.subtree k).height := by
    intro k hk
    obtain ⟨l, p, r, hsub⟩ := subtree_of_mem ho (hmem k hk)
    rw [hsub, height_node]
    omega
  simpa using hrise hks (Nat.zero_le _) hpos

end Avl

end Leaderboard
