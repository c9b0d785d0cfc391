import Mathlib.Data.Finset.Card
import Mathlib.Data.Finset.Range
import Mathlib.Data.Nat.Fib.Basic
import Mathlib.Tactic.NormNum.NatFib
import Leaderboard.Tree.Walk

/-!
# AVL trees as values

The tree that some records spell is a value of `Avl`: payloads at rank keys, with
subtrees and no pointers.  This module says what balancing one node does to such
a value, before any record is looked at.

A rotation and its mirror image are one definition.  `Avl.fork` makes a node from
the subtree on a given side and the one on the other side, and `Avl.rotate`,
`Avl.straighten` and `Avl.raise` take the side that is too high.  `Avl.balance`
is what balancing a node does: it keeps the entries (`entries_balance`), and if
the subtrees are balanced and differ in height by at most two then the result is
balanced (`balanced_balance`) and at most one lower than a plain node would be
(`height_balance`).

A balanced tree is low.  `fib_le_length` bounds its height by its number of
entries, and since no rank key occurs twice, no balanced tree is higher than
`Avl.maxHeight`.
-/

namespace Leaderboard

/-- The side across. -/
def Side.other : Side → Side
  | .left => .right
  | .right => .left

@[simp] theorem Side.other_other (s : Side) : s.other.other = s := by
  cases s <;> rfl

@[simp] theorem Node.payload_setChild (n : Node) (s : Side) (c : NodeRef) :
    (n.setChild s c).payload = n.payload := by
  cases s <;> rfl

theorem Node.child_other_setChild (n : Node) (s : Side) (c : NodeRef) :
    (n.setChild s c).child s.other = n.child s.other := by
  cases s <;> rfl

theorem Node.child_setChild_other (n : Node) (s : Side) (c : NodeRef) :
    (n.setChild s.other c).child s = n.child s := by
  cases s <;> rfl

/-! ## The order of rank keys -/

namespace RankKey

theorem lt_trans {a b c : RankKey} (hab : a < b) (hbc : b < c) : a < c := by
  rw [lt_iff] at hab hbc ⊢
  omega

theorem lt_irrefl (a : RankKey) : ¬ a < a := by
  rw [lt_iff]
  omega

theorem compare_lt {a b : RankKey} : compare a b = .lt ↔ a < b := by
  rw [compare_eq, Nat.compare_eq_lt, lt_iff]

theorem compare_gt {a b : RankKey} : compare a b = .gt ↔ b < a := by
  rw [compare_eq, Nat.compare_eq_gt, lt_iff]

/-- There are no more different keys than there are keys. -/
theorem length_le_total {ks : List RankKey} (h : ks.Nodup) : ks.length ≤ total := by
  have hnodup : (ks.map ordinal).Nodup := h.map fun a b hab => ordinal_inj.mp hab
  have hsub : (ks.map ordinal).toFinset ⊆ Finset.range total := by
    intro n hn
    obtain ⟨k, -, rfl⟩ := List.mem_map.mp (List.mem_toFinset.mp hn)
    exact Finset.mem_range.mpr (ordinal_lt k)
  have hcard := Finset.card_le_card hsub
  rw [List.toFinset_card_of_nodup hnodup, Finset.card_range] at hcard
  simpa using hcard

end RankKey

/-- A binary tree with a payload at every rank key. -/
inductive Avl where
  /-- The empty tree. -/
  | nil
  /-- A node and its two subtrees. -/
  | node (left : Avl) (key : RankKey) (payload : String) (right : Avl)

namespace Avl

/-! ## Height, order and balance -/

/-- The number of nodes on the longest way down. -/
def height : Avl → Nat
  | nil => 0
  | node l _ _ r => 1 + max l.height r.height

/-- The pointer to the tree. -/
def root : Avl → NodeRef
  | nil => none
  | node _ k _ _ => some k

/-- The keys and payloads from left to right. -/
def entries : Avl → List Placement
  | nil => []
  | node l k p r => l.entries ++ (k, p) :: r.entries

/-- The keys from left to right. -/
def keys (t : Avl) : List RankKey := t.entries.map Prod.fst

/-- The keys increase from left to right. -/
def Ordered (t : Avl) : Prop := t.keys.Pairwise (· < ·)

/-- The heights of siblings differ by at most one. -/
def Balanced : Avl → Prop
  | nil => True
  | node l _ _ r =>
      l.height ≤ r.height + 1 ∧ r.height ≤ l.height + 1 ∧ l.Balanced ∧ r.Balanced

@[simp] theorem height_nil : nil.height = 0 := rfl

@[simp] theorem height_node (l : Avl) (k : RankKey) (p : String) (r : Avl) :
    (node l k p r).height = 1 + max l.height r.height := rfl

@[simp] theorem entries_nil : nil.entries = [] := rfl

@[simp] theorem entries_node (l : Avl) (k : RankKey) (p : String) (r : Avl) :
    (node l k p r).entries = l.entries ++ (k, p) :: r.entries := rfl

@[simp] theorem keys_nil : nil.keys = [] := rfl

@[simp] theorem keys_node (l : Avl) (k : RankKey) (p : String) (r : Avl) :
    (node l k p r).keys = l.keys ++ k :: r.keys := by
  simp [keys]

theorem eq_nil_of_height {t : Avl} (h : t.height = 0) : t = nil := by
  cases t with
  | nil => rfl
  | node l k p r =>
      rw [height_node] at h
      omega

theorem root_mem_keys {t : Avl} {k : RankKey} (h : t.root = some k) : k ∈ t.keys := by
  cases t with
  | nil => cases h
  | node l k' p r =>
      cases h
      simp

theorem ordered_node {l : Avl} {k : RankKey} {p : String} {r : Avl} :
    (node l k p r).Ordered ↔
      l.Ordered ∧ r.Ordered ∧ (∀ j ∈ l.keys, j < k) ∧ ∀ j ∈ r.keys, k < j := by
  rw [Ordered, keys_node, List.pairwise_append, List.pairwise_cons]
  constructor
  · rintro ⟨hl, ⟨hkr, hr⟩, hlk⟩
    exact ⟨hl, hr, fun j hj => hlk j hj k (.head _), hkr⟩
  · rintro ⟨hl, hr, hlk, hkr⟩
    refine ⟨hl, ⟨hkr, hr⟩, fun i hi j hj => ?_⟩
    rcases List.mem_cons.mp hj with rfl | hj
    · exact hlk i hi
    · exact RankKey.lt_trans (hlk i hi) (hkr j hj)

theorem Ordered.nodup {t : Avl} (h : t.Ordered) : t.keys.Nodup := by
  refine List.Pairwise.imp ?_ h
  rintro a _ hab rfl
  exact RankKey.lt_irrefl a hab

/-! ## A node seen from one side -/

/-- A node with a subtree on a side and another one across. -/
def fork : Side → Avl → RankKey → String → Avl → Avl
  | .left, near, k, p, far => node near k p far
  | .right, near, k, p, far => node far k p near

theorem fork_other (s : Side) (x : Avl) (k : RankKey) (p : String) (y : Avl) :
    fork s.other x k p y = fork s y k p x := by
  cases s <;> rfl

theorem exists_fork (s : Side) {t : Avl} (h : t.height ≠ 0) :
    ∃ x k p y, t = fork s x k p y := by
  cases t with
  | nil => exact absurd rfl h
  | node l k p r =>
      cases s with
      | left => exact ⟨l, k, p, r, rfl⟩
      | right => exact ⟨r, k, p, l, rfl⟩

@[simp] theorem root_fork (s : Side) (x : Avl) (k : RankKey) (p : String) (y : Avl) :
    (fork s x k p y).root = some k := by
  cases s <;> rfl

@[simp] theorem height_fork (s : Side) (x : Avl) (k : RankKey) (p : String) (y : Avl) :
    (fork s x k p y).height = 1 + max x.height y.height := by
  cases s with
  | left => rfl
  | right => exact congrArg (1 + ·) (Nat.max_comm _ _)

theorem balanced_fork (s : Side) (x : Avl) (k : RankKey) (p : String) (y : Avl) :
    (fork s x k p y).Balanced ↔
      x.height ≤ y.height + 1 ∧ y.height ≤ x.height + 1 ∧ x.Balanced ∧ y.Balanced := by
  cases s with
  | left => exact Iff.rfl
  | right =>
      constructor
      · rintro ⟨h₁, h₂, h₃, h₄⟩
        exact ⟨h₂, h₁, h₄, h₃⟩
      · rintro ⟨h₁, h₂, h₃, h₄⟩
        exact ⟨h₂, h₁, h₄, h₃⟩

theorem keys_fork_congr {s : Side} {x x' : Avl} (h : x.keys = x'.keys) (k : RankKey) (p : String)
    (y : Avl) : (fork s x k p y).keys = (fork s x' k p y).keys := by
  cases s with
  | left => rw [fork, fork, keys_node, keys_node, h]
  | right => rw [fork, fork, keys_node, keys_node, h]

theorem mem_keys_fork {s : Side} {x : Avl} {k : RankKey} {p : String} {y : Avl} {j : RankKey} :
    j ∈ (fork s x k p y).keys ↔ j ∈ x.keys ∨ j = k ∨ j ∈ y.keys := by
  cases s with
  | left => simp [fork]
  | right =>
      simp only [fork, keys_node, List.mem_append, List.mem_cons]
      constructor
      · rintro (h | h | h)
        · exact .inr (.inr h)
        · exact .inr (.inl h)
        · exact .inl h
      · rintro (h | h | h)
        · exact .inr (.inr h)
        · exact .inr (.inl h)
        · exact .inl h

/-- The keys of a node are told apart if those of each subtree are, no key is in
both, and the node's key is in neither. -/
theorem nodup_fork {s : Side} {x : Avl} {k : RankKey} {p : String} {y : Avl} :
    (fork s x k p y).keys.Nodup ↔
      x.keys.Nodup ∧ y.keys.Nodup ∧ k ∉ x.keys ∧ k ∉ y.keys ∧ ∀ j ∈ x.keys, j ∉ y.keys := by
  cases s with
  | left =>
      simp only [fork, keys_node, List.nodup_append, List.nodup_cons, List.mem_cons]
      constructor
      · rintro ⟨hx, ⟨hk, hy⟩, hd⟩
        exact ⟨hx, hy, fun h => hd k h k (.inl rfl) rfl, hk,
          fun j hj hj' => hd j hj j (.inr hj') rfl⟩
      · rintro ⟨hx, hy, hkx, hky, hd⟩
        refine ⟨hx, ⟨hky, hy⟩, ?_⟩
        rintro a ha b (rfl | hb) rfl
        · exact hkx ha
        · exact hd a ha hb
  | right =>
      simp only [fork, keys_node, List.nodup_append, List.nodup_cons, List.mem_cons]
      constructor
      · rintro ⟨hy, ⟨hk, hx⟩, hd⟩
        exact ⟨hx, hy, hk, fun h => hd k h k (.inl rfl) rfl,
          fun j hj hj' => hd j hj' j (.inr hj) rfl⟩
      · rintro ⟨hx, hy, hkx, hky, hd⟩
        refine ⟨hy, ⟨hkx, hx⟩, ?_⟩
        rintro a ha b (rfl | hb) rfl
        · exact hky ha
        · exact hd a hb ha

/-! ## Rotations -/

/-- A node whose subtree on a side is put above it. -/
def rotate : Side → Avl → RankKey → String → Avl → Avl
  | .left, node outer ck cp inner, k, p, far => node outer ck cp (node inner k p far)
  | .right, node inner ck cp outer, k, p, far => node (node far k p inner) ck cp outer
  | s, nil, k, p, far => fork s nil k p far

/-- A subtree on a side, rotated if it is higher inside than outside. -/
def straighten : Side → Avl → Avl
  | _, nil => nil
  | .left, node outer ck cp inner =>
      if outer.height < inner.height then rotate .right inner ck cp outer
      else node outer ck cp inner
  | .right, node inner ck cp outer =>
      if outer.height < inner.height then rotate .left inner ck cp outer
      else node inner ck cp outer

/-- A node that is too high on a side, made lower there. -/
def raise (s : Side) (near : Avl) (k : RankKey) (p : String) (far : Avl) : Avl :=
  rotate s (straighten s near) k p far

/-- A node made lower on the side where it is too high. -/
def balance (l : Avl) (k : RankKey) (p : String) (r : Avl) : Avl :=
  if l.height > r.height + 1 then raise .left l k p r
  else if r.height > l.height + 1 then raise .right r k p l
  else node l k p r

theorem rotate_fork (s : Side) (outer : Avl) (ck : RankKey) (cp : String) (inner : Avl)
    (k : RankKey) (p : String) (far : Avl) :
    rotate s (fork s outer ck cp inner) k p far = fork s outer ck cp (fork s inner k p far) := by
  cases s <;> rfl

theorem straighten_fork (s : Side) (outer : Avl) (ck : RankKey) (cp : String) (inner : Avl) :
    straighten s (fork s outer ck cp inner) =
      if outer.height < inner.height then rotate s.other inner ck cp outer
      else fork s outer ck cp inner := by
  cases s <;> rfl

theorem entries_rotate (s : Side) (near : Avl) (k : RankKey) (p : String) (far : Avl) :
    (rotate s near k p far).entries = (fork s near k p far).entries := by
  cases near with
  | nil => cases s <;> rfl
  | node l ck cp r => cases s <;> simp [rotate, fork]

theorem keys_rotate (s : Side) (near : Avl) (k : RankKey) (p : String) (far : Avl) :
    (rotate s near k p far).keys = (fork s near k p far).keys := by
  rw [keys, entries_rotate, keys]

theorem height_rotate_le (s : Side) (near : Avl) (k : RankKey) (p : String) (far : Avl) :
    (rotate s near k p far).height ≤ (fork s near k p far).height + 1 := by
  by_cases h : near.height = 0
  · rw [eq_nil_of_height h]
    cases s <;> exact Nat.le_succ _
  · obtain ⟨outer, ck, cp, inner, rfl⟩ := exists_fork s h
    rw [rotate_fork]
    simp only [height_fork]
    omega

theorem entries_straighten (s : Side) (t : Avl) : (straighten s t).entries = t.entries := by
  cases t with
  | nil => cases s <;> rfl
  | node l k p r =>
      cases s with
      | left =>
          rw [straighten]
          split
          · rw [entries_rotate]
            rfl
          · rfl
      | right =>
          rw [straighten]
          split
          · rw [entries_rotate]
            rfl
          · rfl

theorem entries_raise (s : Side) (near : Avl) (k : RankKey) (p : String) (far : Avl) :
    (raise s near k p far).entries = (fork s near k p far).entries := by
  rw [raise, entries_rotate]
  cases s with
  | left => simp [fork, entries_straighten]
  | right => simp [fork, entries_straighten]

@[simp] theorem entries_balance (l : Avl) (k : RankKey) (p : String) (r : Avl) :
    (balance l k p r).entries = l.entries ++ (k, p) :: r.entries := by
  unfold balance
  split
  · rw [entries_raise]
    rfl
  · split
    · rw [entries_raise]
      rfl
    · rfl

/-! ## What balancing does to heights -/

/-- A side that is too high by two is put right: the node ends balanced, and one
lower than before or as high as before. -/
theorem raise_balanced {s : Side} {near far : Avl} (hn : near.Balanced) (hf : far.Balanced)
    (h : near.height = far.height + 2) (k : RankKey) (p : String) :
    (raise s near k p far).Balanced ∧
      ((raise s near k p far).height = near.height ∨
        (raise s near k p far).height = near.height + 1) := by
  obtain ⟨outer, ck, cp, inner, rfl⟩ := exists_fork s (t := near) (by omega)
  rw [balanced_fork] at hn
  obtain ⟨h₁, h₂, ho, hi⟩ := hn
  rw [height_fork] at h
  rw [raise, straighten_fork]
  by_cases hlean : outer.height < inner.height
  · -- the inner subtree is the higher one, so it goes to the top
    obtain ⟨a, ik, ip, b, rfl⟩ := exists_fork s.other (t := inner) (by omega)
    rw [balanced_fork] at hi
    obtain ⟨h₃, h₄, ha, hb⟩ := hi
    rw [height_fork] at h h₁ h₂ hlean
    rw [if_pos (by rw [height_fork]; exact hlean), rotate_fork, fork_other, fork_other,
      rotate_fork]
    simp only [balanced_fork, height_fork]
    exact ⟨⟨by omega, by omega, ⟨by omega, by omega, ho, hb⟩, by omega, by omega, ha, hf⟩,
      .inl (by omega)⟩
  · rw [if_neg hlean, rotate_fork]
    simp only [balanced_fork, height_fork]
    refine ⟨⟨by omega, by omega, ho, by omega, by omega, hi, hf⟩, ?_⟩
    by_cases heq : inner.height = outer.height
    · exact .inr (by omega)
    · exact .inl (by omega)

theorem balanced_balance {l r : Avl} (hl : l.Balanced) (hr : r.Balanced)
    (h₁ : l.height ≤ r.height + 2) (h₂ : r.height ≤ l.height + 2) (k : RankKey) (p : String) :
    (balance l k p r).Balanced := by
  unfold balance
  split
  · exact (raise_balanced hl hr (by omega) k p).1
  · split
    · exact (raise_balanced hr hl (by omega) k p).1
    · exact ⟨by omega, by omega, hl, hr⟩

/-- Balancing gives a node of the height of a plain node, or one lower if the
heights of the subtrees differ by two. -/
theorem height_balance {l r : Avl} (hl : l.Balanced) (hr : r.Balanced)
    (h₁ : l.height ≤ r.height + 2) (h₂ : r.height ≤ l.height + 2) (k : RankKey) (p : String) :
    (balance l k p r).height = max l.height r.height + 1 ∨
      ((l.height = r.height + 2 ∨ r.height = l.height + 2) ∧
        (balance l k p r).height = max l.height r.height) := by
  unfold balance
  split
  · obtain ⟨-, h | h⟩ := raise_balanced (s := .left) hl hr (by omega) k p
    · exact .inr ⟨.inl (by omega), by omega⟩
    · exact .inl (by omega)
  · split
    · obtain ⟨-, h | h⟩ := raise_balanced (s := .right) hr hl (by omega) k p
      · exact .inr ⟨.inr (by omega), by omega⟩
      · exact .inl (by omega)
    · exact .inl (by rw [height_node]; omega)

/-! ## Balanced trees are low -/

/-- A balanced tree of a height has at least as many nodes as a Fibonacci tree. -/
theorem fib_le_length {t : Avl} (h : t.Balanced) :
    Nat.fib (t.height + 2) ≤ t.entries.length + 1 := by
  induction t with
  | nil => exact Nat.le_refl _
  | node l k p r ihl ihr =>
      obtain ⟨h₁, h₂, hl, hr⟩ := h
      have hl' := ihl hl
      have hr' := ihr hr
      have hlen : (node l k p r).entries.length = l.entries.length + 1 + r.entries.length := by
        simp
        omega
      have hfib : Nat.fib ((node l k p r).height + 2) ≤
          Nat.fib (l.height + 2) + Nat.fib (r.height + 2) := by
        rw [height_node]
        rcases Nat.le_total l.height r.height with hle | hle
        · have hstep : 1 + max l.height r.height + 2 = r.height + 1 + 2 := by omega
          have hmono : Nat.fib (r.height + 1) ≤ Nat.fib (l.height + 2) := Nat.fib_mono (by omega)
          rw [hstep, Nat.fib_add_two]
          exact (Nat.add_le_add_right hmono _)
        · have hstep : 1 + max l.height r.height + 2 = l.height + 1 + 2 := by omega
          have hmono : Nat.fib (l.height + 1) ≤ Nat.fib (r.height + 2) := Nat.fib_mono (by omega)
          rw [hstep, Nat.fib_add_two, Nat.add_comm]
          exact Nat.add_le_add_left hmono _
      omega

theorem length_le_total {t : Avl} (h : t.keys.Nodup) : t.entries.length ≤ RankKey.total := by
  simpa [keys] using RankKey.length_le_total h

/-- No balanced tree with different keys is higher. -/
def maxHeight : Nat := 200

theorem height_le_maxHeight {t : Avl} (hb : t.Balanced) (hn : t.keys.Nodup) :
    t.height ≤ maxHeight := by
  by_contra hlt
  have hmono : Nat.fib 203 ≤ Nat.fib (t.height + 2) := by
    apply Nat.fib_mono
    rw [maxHeight] at hlt
    omega
  have hfib : RankKey.total + 1 < Nat.fib 203 := by
    have : Nat.fib 203 = 1188518561323126046432205871807859915657177 := by norm_num
    rw [this, RankKey.total, RankKey.width]
    decide
  have hle := fib_le_length hb
  have htotal := length_le_total hn
  omega

/-- A balanced tree with fewer nodes than a word of eight bytes can count is no
higher than a walk can go down. -/
theorem height_le_maxDepth {t : Avl} (hb : t.Balanced) (h : t.entries.length < UInt64.size) :
    t.height ≤ Walk.maxDepth := by
  by_contra hlt
  have hmono : Nat.fib 131 ≤ Nat.fib (t.height + 2) := by
    apply Nat.fib_mono
    rw [Walk.maxDepth] at hlt
    omega
  have hfib : UInt64.size < Nat.fib 131 := by
    have : Nat.fib 131 = 1066340417491710595814572169 := by norm_num
    rw [this]
    decide
  have hle := fib_le_length hb
  omega

end Avl

end Leaderboard
