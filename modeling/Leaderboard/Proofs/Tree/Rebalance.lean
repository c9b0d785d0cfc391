import Leaderboard.Proofs.Tree.Session

/-!
# Balancing records

Balancing a node of the records changes them just as `Avl.balance` changes the
tree that they spell (`Tree.rebalance_gives`), and going back up a way down does
what `Avl.regrow` does (`Tree.rebuild_gives`).

As for trees, a rotation and its mirror image are one action, `Tree.turn`, and so
are the two ways to lower a node, `Tree.lower`.  A node whose child was just
replaced stores the height it had before.  So the statements ask for a node that
`Avl.Leans` on its subtrees, and give one that `Avl.Stands`.
-/

namespace Leaderboard

open Session (Evolves)
open SessionM (Gives gives_pure)

theorem toNat_one_add_max {a b : UInt32} (h : 1 + max a.toNat b.toNat < UInt32.size) :
    (1 + max a b).toNat = 1 + max a.toNat b.toNat := by
  have hmax : (max a b).toNat = max a.toNat b.toNat := by
    rw [show max a b = if a ≤ b then b else a from rfl]
    split
    next hle =>
      have hle' := UInt32.le_iff_toNat_le.mp hle
      omega
    next hlt =>
      rw [UInt32.le_iff_toNat_le] at hlt
      omega
  rw [UInt32.toNat_add, hmax]
  exact Nat.mod_eq_of_lt h

namespace Tree

variable {t : Tree} {c : Contents} {s : Session}

/-! ## Heights -/

theorem height_gives {x : Avl} (h : x.Stands (s.sees t c)) :
    ∃ s' height, Gives c (t.height x.root) s height s' ∧ height.toNat = x.height ∧
      Evolves t c [] s s' := by
  cases x with
  | nil => exact ⟨s, 0, gives_pure 0, rfl, .refl _ _⟩
  | node l k p r =>
      obtain ⟨⟨height, hn, hh⟩, -, -⟩ := h
      obtain ⟨s', hfetch, he⟩ := fetch_gives hn
      exact ⟨s', height, hfetch.bind (gives_pure _), hh, he⟩

theorem childHeights_gives {l : Avl} {k : RankKey} {p : String} {r : Avl}
    (h : Avl.Leans (s.sees t c) .left l k p r) :
    ∃ s' hl hr, Gives c (t.childHeights k) s (hl, hr) s' ∧ hl.toNat = l.height ∧
      hr.toNat = r.height ∧ Evolves t c [] s s' := by
  obtain ⟨⟨n, hn, -, hl, hr⟩, hsl, hsr⟩ := h
  obtain ⟨s₁, hfetch, he₁⟩ := fetch_gives hn
  obtain ⟨s₂, a, hleft, ha, he₂⟩ := height_gives (he₁.stands hsl (by simp))
  obtain ⟨s₃, b, hright, hb, he₃⟩ :=
    height_gives ((he₁.trans he₂).stands hsr (by simp))
  refine ⟨s₃, a, b, hfetch.bind ?_, ha, hb, (he₁.trans he₂).trans he₃⟩
  rw [show n.left = l.root from hl, show n.right = r.root from hr]
  exact hleft.bind (hright.bind (gives_pure _))

theorem balance_gives {l : Avl} {k : RankKey} {p : String} {r : Avl}
    (h : Avl.Leans (s.sees t c) .left l k p r) :
    ∃ s', Gives c (t.balance k) s ((l.height : Int) - r.height) s' ∧ Evolves t c [] s s' := by
  obtain ⟨s', a, b, hgives, ha, hb, he⟩ := childHeights_gives h
  rw [← ha, ← hb]
  exact ⟨s', hgives.bind (gives_pure _), he⟩

/-- Putting the height of a node right makes it stand. -/
theorem updateHeight_gives {side : Side} {near : Avl} {k : RankKey} {p : String} {far : Avl}
    (h : Avl.Leans (s.sees t c) side near k p far)
    (hnodup : (Avl.fork side near k p far).keys.Nodup)
    (hbound : (Avl.fork side near k p far).height < UInt32.size) :
    ∃ s', Gives c (t.updateHeight k) s () s' ∧ Evolves t c [k] s s' ∧
      (Avl.fork side near k p far).Stands (s'.sees t c) := by
  obtain ⟨l, r, hfork, h⟩ := Avl.Leans.node h
  rw [hfork] at hnodup hbound ⊢
  obtain ⟨s₁, a, b, hheights, ha, hb, he₁⟩ := childHeights_gives h
  obtain ⟨⟨n, hn, hp, hl, hr⟩, hsl, hsr⟩ := h
  have hn₁ : s₁.sees t c k = some n := he₁.sees_some hn (by simp)
  obtain ⟨s₂, hfetch, he₂⟩ := fetch_gives hn₁
  have hn₂ : s₂.sees t c k = some n := he₂.sees_some hn₁ (by simp)
  have he : Evolves t c [k] s s₂ := (he₁.trans he₂).mono (by simp)
  have hheight : (1 + max a b).toNat = (Avl.node l k p r).height := by
    rw [Avl.height_node, ← ha, ← hb] at hbound ⊢
    exact toNat_one_add_max hbound
  obtain ⟨-, -, hkl, hkr, -⟩ := (Avl.nodup_fork (s := .left)).mp hnodup
  have hstands : ∀ s', Evolves t c [k] s s' →
      s'.sees t c k = some { n with height := 1 + max a b } →
        (Avl.node l k p r).Stands (s'.sees t c) := by
    intro s' he' hn'
    have hnode : { n with height := 1 + max a b } = Node.mk p l.root r.root (1 + max a b) := by
      rw [← hp, ← show n.left = l.root from hl, ← show n.right = r.root from hr]
    exact ⟨⟨1 + max a b, hn'.trans (congrArg some hnode), hheight⟩,
      he'.stands_of_notMem hsl hkl, he'.stands_of_notMem hsr hkr⟩
  by_cases hcase : n.height = 1 + max a b
  · refine ⟨s₂, hheights.bind (hfetch.bind ?_), he, hstands s₂ he ?_⟩
    · rw [if_neg (not_not_intro hcase)]
      exact gives_pure ()
    · rw [hn₂, ← hcase]
  · have hfits : s₂.Sound t c → Codec.Fits n.payload := fun hs => hs.fits_of_sees hn₂
    obtain ⟨s₃, hstore, he₃, hn₃⟩ :=
      store_gives (t := t) (c := c) (s := s₂) k (n := { n with height := 1 + max a b }) hfits
    refine ⟨s₃, hheights.bind (hfetch.bind ?_), he.trans he₃, hstands s₃ (he.trans he₃) hn₃⟩
    rw [if_pos hcase]
    exact hstore

theorem childOrFault_gives {side : Side} {near : Avl} {k : RankKey} {p : String} {far : Avl}
    {child : RankKey} (h : Avl.Leans (s.sees t c) side near k p far)
    (hroot : near.root = some child) (fault : TreeFault) :
    ∃ s', Gives c (t.childOrFault k side fault) s child s' ∧ Evolves t c [] s s' := by
  obtain ⟨⟨n, hn, -, hnear, -⟩, -, -⟩ := h
  obtain ⟨s₁, hfetch, he₁⟩ := fetch_gives hn
  refine ⟨s₁, hfetch.bind ?_, he₁⟩
  rw [show n.child side = some child from hnear.trans hroot]
  exact gives_pure child

/-! ## Actions on a side -/

/-- The fault of a rotation that lacks the child on a side. -/
def rotationFault : Side → RankKey → TreeFault
  | .left => .rightRotation
  | .right => .leftRotation

/-- The fault of a node that lacks the child on the side that is too high. -/
def heavyFault : Side → RankKey → TreeFault
  | .left => .leftHeavy
  | .right => .rightHeavy

/-- Whether a difference of heights tells that a child on a side is higher inside
than outside. -/
def Inward : Side → Int → Prop
  | .left, d => d < 0
  | .right, d => d > 0

instance : (s : Side) → (d : Int) → Decidable (Inward s d)
  | .left, d => inferInstanceAs (Decidable (d < 0))
  | .right, d => inferInstanceAs (Decidable (d > 0))

/-- Puts the child on a side of a node above it. -/
def turn (t : Tree) (side : Side) (key : RankKey) : SessionM RankKey := do
  let pivot ← t.childOrFault key side (rotationFault side key)
  let inner := (← t.fetch pivot).child side.other
  t.setChild key side inner
  t.setChild pivot side.other (some key)
  t.updateHeight key
  t.updateHeight pivot
  pure pivot

/-- Balances a node that is too high on a side. -/
def lower (t : Tree) (side : Side) (key : RankKey) : SessionM RankKey := do
  let child ← t.childOrFault key side (heavyFault side key)
  if Inward side (← t.balance child) then
    t.setChild key side (some (← t.turn side.other child))
  t.turn side key

theorem rebalance_eq (key : RankKey) :
    t.rebalance key = (do
      t.updateHeight key
      let difference ← t.balance key
      if difference > 1 then t.lower .left key
      else if difference < -1 then t.lower .right key
      else pure key) := rfl

/-! ## Rotations -/

/-- The two pointers that a rotation turns: the node leans on the inner subtree, and the
child points to the node. -/
theorem repoint_gives {side : Side} {outer : Avl} {pivot : RankKey} {cp : String} {inner : Avl}
    {k : RankKey} {p : String} {far : Avl}
    (h : Avl.Leans (s.sees t c) side (Avl.fork side outer pivot cp inner) k p far)
    (hnodup : (Avl.fork side outer pivot cp (Avl.fork side inner k p far)).keys.Nodup) :
    ∃ m m' s₁ s₂ s', Gives c (t.fetch pivot) s m s₁ ∧ m.child side.other = inner.root ∧
      Gives c (t.setChild k side inner.root) s₁ () s₂ ∧
      Gives c (t.setChild pivot side.other (some k)) s₂ () s' ∧ Evolves t c [k, pivot] s s' ∧
      Avl.Leans (s'.sees t c) side inner k p far ∧
      s'.sees t c pivot = some m' ∧ m'.payload = cp ∧ m'.child side = outer.root ∧
      m'.child side.other = some k ∧ outer.Stands (s'.sees t c) := by
  obtain ⟨-, hlow, hpo, hpl, hol⟩ := Avl.nodup_fork.mp hnodup
  obtain ⟨-, -, hki, hkf, -⟩ := Avl.nodup_fork.mp hlow
  have hko : k ∉ outer.keys := fun hk => hol k hk (Avl.mem_keys_fork.mpr (.inr (.inl rfl)))
  rw [Avl.mem_keys_fork, not_or, not_or] at hpl
  obtain ⟨hpi, hpk, hpf⟩ := hpl
  obtain ⟨⟨n, hn, hp, -, hf⟩, hsnear, hsf⟩ := h
  obtain ⟨⟨m, hm, hmp, hmo, hmi, -⟩, hso, hsi⟩ := Avl.stands_fork.mp hsnear
  obtain ⟨s₁, hfetch, he₁⟩ := fetch_gives hm
  obtain ⟨s₂, hset₂, he₂, hn₂⟩ :=
    setChild_gives (he₁.sees_some hn (by simp)) side inner.root
  have hm₂ : s₂.sees t c pivot = some m :=
    he₂.sees_some (he₁.sees_some hm (by simp)) (by simpa using hpk)
  obtain ⟨s₃, hset₃, he₃, hm₃⟩ := setChild_gives hm₂ side.other (some k)
  have hn₃ := he₃.sees_some hn₂ (by simpa using Ne.symm hpk)
  have he : Evolves t c [k, pivot] s s₃ :=
    ((he₁.mono (by simp)).trans (he₂.mono (by simp))).trans (he₃.mono (by simp))
  have haway : ∀ x : Avl, x.Stands (s.sees t c) → k ∉ x.keys → pivot ∉ x.keys →
      x.Stands (s₃.sees t c) := by
    intro x hx hkx hpx
    refine he.stands hx fun j hj hjk => ?_
    simp only [List.mem_cons, List.not_mem_nil, or_false] at hjk
    rcases hjk with rfl | rfl
    · exact hkx hj
    · exact hpx hj
  refine ⟨m, _, s₁, s₂, s₃, hfetch, hmi, hset₂, hset₃, he,
    ⟨⟨_, hn₃, ?_, Node.child_setChild .., ?_⟩, haway _ hsi hki hpi, haway _ hsf hkf hpf⟩,
    hm₃, ?_, ?_, Node.child_setChild .., haway _ hso hko hpo⟩
  · rw [Node.payload_setChild, hp]
  · rw [Node.child_other_setChild, hf]
  · rw [Node.payload_setChild, hmp]
  · rw [Node.child_setChild_other, hmo]

/-- A rotation of the records is one of the tree. -/
theorem turn_gives {side : Side} {near : Avl} {k : RankKey} {p : String} {far : Avl}
    (h : Avl.Leans (s.sees t c) side near k p far) (hnear : near.height ≠ 0)
    (hnodup : (Avl.fork side near k p far).keys.Nodup)
    (hbound : (Avl.fork side near k p far).height + 1 < UInt32.size) :
    ∃ s' top, Gives c (t.turn side k) s top s' ∧
      Evolves t c (Avl.fork side near k p far).keys s s' ∧
      (Avl.rotate side near k p far).root = some top ∧
      (Avl.rotate side near k p far).Stands (s'.sees t c) := by
  obtain ⟨outer, pivot, cp, inner, rfl⟩ := Avl.exists_fork side hnear
  have hkeys : ∀ j ∈ [k, pivot],
      j ∈ (Avl.fork side (Avl.fork side outer pivot cp inner) k p far).keys := by
    simp [Avl.mem_keys_fork]
  rw [← Avl.keys_rotate, Avl.rotate_fork] at hnodup
  rw [Avl.height_fork, Avl.height_fork] at hbound
  rw [Avl.rotate_fork]
  obtain ⟨-, hlow, -, hpl, hol⟩ := Avl.nodup_fork.mp hnodup
  have hko : k ∉ outer.keys := fun hk => hol k hk (Avl.mem_keys_fork.mpr (.inr (.inl rfl)))
  have hpk : pivot ≠ k := fun h => hpl (Avl.mem_keys_fork.mpr (.inr (.inl h)))
  obtain ⟨s₁, hpivot, he₁⟩ := childOrFault_gives h (Avl.root_fork ..) (rotationFault side k)
  rw [← he₁.sees_same] at h
  obtain ⟨m, m', s₂, s₃, s₄, hfetch, hmi, hset₃, hset₄, he₄, hlean₄, hm₄, hp₄, ho₄, hi₄, hso₄⟩ :=
    repoint_gives h hnodup
  -- the two heights are put right, the lower one first
  obtain ⟨s₅, hheight₅, he₅, hstands₅⟩ := updateHeight_gives hlean₄ hlow
    (by rw [Avl.height_fork]; omega)
  have hm₅ := he₅.sees_some hm₄ (by simpa using hpk)
  have hlean₅ : Avl.Leans (s₅.sees t c) side outer pivot cp (Avl.fork side inner k p far) := by
    refine ⟨⟨m', hm₅, hp₄, ho₄, ?_⟩, he₅.stands_of_notMem hso₄ hko, hstands₅⟩
    rw [hi₄, Avl.root_fork]
  obtain ⟨s₆, hheight₆, he₆, hstands₆⟩ := updateHeight_gives hlean₅ hnodup
    (by rw [Avl.height_fork, Avl.height_fork]; omega)
  have he : Evolves t c [k, pivot] s s₆ :=
    (((he₁.mono (by simp)).trans he₄).trans (he₅.mono (by simp))).trans (he₆.mono (by simp))
  refine ⟨s₆, pivot, hpivot.bind (hfetch.bind ?_), he.mono hkeys, Avl.root_fork .., hstands₆⟩
  rw [hmi]
  exact hset₃.bind (hset₄.bind (hheight₅.bind (hheight₆.bind (gives_pure pivot))))

theorem inward_iff {side : Side} {outer inner : Avl} {k : RankKey} {p : String} {l r : Avl}
    (h : Avl.fork side outer k p inner = .node l k p r) :
    Inward side ((l.height : Int) - r.height) ↔ outer.height < inner.height := by
  cases side with
  | left =>
      cases h
      simp only [Inward]
      omega
  | right =>
      cases h
      simp only [Inward]
      omega

/-- The child of a node is turned the other way, and the node leans on it as it is then. -/
theorem turn_child_gives {side : Side} {outer : Avl} {child : RankKey} {cp : String}
    {inner : Avl} {k : RankKey} {p : String} {far : Avl}
    (h : Avl.Leans (s.sees t c) side (Avl.fork side outer child cp inner) k p far)
    (hinner : inner.height ≠ 0)
    (hnodup : (Avl.fork side (Avl.fork side outer child cp inner) k p far).keys.Nodup)
    (hbound : (Avl.fork side outer child cp inner).height + 1 < UInt32.size) :
    ∃ s₁ s' top, Gives c (t.turn side.other child) s top s₁ ∧
      Gives c (t.setChild k side (some top)) s₁ () s' ∧
      Evolves t c (Avl.fork side (Avl.fork side outer child cp inner) k p far).keys s s' ∧
      (Avl.rotate side.other inner child cp outer).root = some top ∧
      Avl.Leans (s'.sees t c) side (Avl.rotate side.other inner child cp outer) k p far := by
  obtain ⟨hnear_nodup, -, hkn, hkf, hnf⟩ := Avl.nodup_fork.mp hnodup
  have hother := Avl.fork_other side inner child cp outer
  rw [← hother] at hnear_nodup hbound
  obtain ⟨s₁, top, hturn, he₁, htop, hstands₁⟩ :=
    turn_gives h.2.1.leans.other hinner hnear_nodup hbound
  rw [hother] at he₁
  obtain ⟨⟨n, hn, hp, -, hf⟩, -, hsf⟩ := h
  obtain ⟨s₂, hset, he₂, hn₂⟩ := setChild_gives (he₁.sees_some hn hkn) side (some top)
  refine ⟨s₁, s₂, top, hturn, hset, (he₁.mono ?_).trans (he₂.mono ?_), htop,
    ⟨_, hn₂, ?_, ?_, ?_⟩, he₂.stands_of_notMem hstands₁ ?_,
    he₂.stands_of_notMem (he₁.stands hsf ?_) hkf⟩
  · exact fun j hj => Avl.mem_keys_fork.mpr (.inl hj)
  · exact fun j hj => Avl.mem_keys_fork.mpr (.inr (.inl (List.mem_singleton.mp hj)))
  · rw [Node.payload_setChild, hp]
  · rw [Node.child_setChild, htop]
  · rw [Node.child_other_setChild, hf]
  · rw [Avl.keys_rotate, hother]
    exact hkn
  · exact fun j hj hjn => hnf j hjn hj

/-- The records of a node that is too high on a side are changed as the tree. -/
theorem lower_gives {side : Side} {near : Avl} {k : RankKey} {p : String} {far : Avl}
    (h : Avl.Leans (s.sees t c) side near k p far) (hnear : near.height ≠ 0)
    (hnodup : (Avl.fork side near k p far).keys.Nodup)
    (hbound : (Avl.fork side near k p far).height + 2 < UInt32.size) :
    ∃ s' top, Gives c (t.lower side k) s top s' ∧
      Evolves t c (Avl.fork side near k p far).keys s s' ∧
      (Avl.raise side near k p far).root = some top ∧
      (Avl.raise side near k p far).Stands (s'.sees t c) := by
  obtain ⟨outer, child, cp, inner, rfl⟩ := Avl.exists_fork side hnear
  obtain ⟨s₁, hchild, he₁⟩ := childOrFault_gives h (Avl.root_fork ..) (heavyFault side k)
  rw [← he₁.sees_same] at h
  obtain ⟨l, r, hfork, hlean₁⟩ := Avl.Leans.node h.2.1.leans
  obtain ⟨s₂, hbalance, he₂⟩ := balance_gives hlean₁
  rw [← he₂.sees_same] at h
  have he₁₂ : Evolves t c [] s s₂ := he₁.trans he₂
  rw [Avl.raise, Avl.straighten_fork]
  by_cases hlean : outer.height < inner.height
  · -- the child is turned the other way first
    rw [if_pos hlean]
    rw [Avl.height_fork, Avl.height_fork] at hbound
    obtain ⟨s₃, s₄, child', hturn₃, hset₄, he₄, hroot, hlean₄⟩ :=
      turn_child_gives h (by omega) hnodup (by rw [Avl.height_fork]; omega)
    have he₁₄ := (he₁₂.mono (by simp)).trans he₄
    have hother := Avl.fork_other side inner child cp outer
    have hkeys : (Avl.fork side (Avl.rotate side.other inner child cp outer) k p far).keys =
        (Avl.fork side (Avl.fork side outer child cp inner) k p far).keys :=
      Avl.keys_fork_congr (by rw [Avl.keys_rotate, hother]) ..
    have hheight := Avl.height_rotate_le side.other inner child cp outer
    rw [hother, Avl.height_fork] at hheight
    have hnonempty : (Avl.rotate side.other inner child cp outer).height ≠ 0 := by
      intro h0
      rw [Avl.eq_nil_of_height h0] at hroot
      cases hroot
    obtain ⟨s₅, top, hturn₅, he₅, htop, hstands⟩ := turn_gives hlean₄ hnonempty
      (hkeys ▸ hnodup) (by rw [Avl.height_fork]; omega)
    rw [hkeys] at he₅
    refine ⟨s₅, top, hchild.bind (hbalance.bind ?_), he₁₄.trans he₅, htop, hstands⟩
    rw [if_pos ((inward_iff hfork).mpr hlean)]
    exact hturn₃.bind (hset₄.bind hturn₅)
  · rw [if_neg hlean]
    obtain ⟨s₃, top, hturn, he₃, htop, hstands⟩ := turn_gives h hnear hnodup (by omega)
    refine ⟨s₃, top, hchild.bind (hbalance.bind ?_), (he₁₂.mono (by simp)).trans he₃, htop,
      hstands⟩
    rw [if_neg (mt (inward_iff hfork).mp hlean)]
    exact hturn

/-- Balancing a node of the records is balancing one of the tree. -/
theorem rebalance_gives {l : Avl} {k : RankKey} {p : String} {r : Avl}
    (h : Avl.Leans (s.sees t c) .left l k p r) (hnodup : (Avl.node l k p r).keys.Nodup)
    (hl : l.Balanced) (hr : r.Balanced) :
    ∃ s' top, Gives c (t.rebalance k) s top s' ∧
      Evolves t c (Avl.node l k p r).keys s s' ∧
      (Avl.balance l k p r).root = some top ∧ (Avl.balance l k p r).Stands (s'.sees t c) := by
  have hbound : (Avl.node l k p r).height + 2 < UInt32.size := by
    obtain ⟨hl_nodup, hr_nodup, -⟩ := (Avl.nodup_fork (s := .left)).mp hnodup
    have hlh := Avl.height_le_maxHeight hl hl_nodup
    have hrh := Avl.height_le_maxHeight hr hr_nodup
    rw [Avl.height_node, UInt32.size]
    rw [Avl.maxHeight] at hlh hrh
    omega
  obtain ⟨s₁, hheight, he₁, hstands₁⟩ :=
    updateHeight_gives h hnodup (Nat.lt_of_add_right_lt hbound)
  obtain ⟨s₂, hbalance, he₂⟩ := balance_gives (Avl.Stands.leans (s := .left) hstands₁)
  rw [← he₂.sees_same] at hstands₁
  have he₁₂ : Evolves t c (Avl.node l k p r).keys s s₂ :=
    (he₁.mono (by simp)).trans (he₂.mono (by simp))
  rw [rebalance_eq, Avl.balance]
  split
  next hleft =>
    obtain ⟨s₃, top, hlower, he₃, htop, hstands₃⟩ :=
      lower_gives (Avl.Stands.leans (s := .left) hstands₁) (by omega) hnodup hbound
    refine ⟨s₃, top, hheight.bind (hbalance.bind ?_), he₁₂.trans he₃, htop, hstands₃⟩
    rw [if_pos (by omega)]
    exact hlower
  next hleft =>
    split
    next hright =>
      have hlean : Avl.Leans (s₂.sees t c) .right r k p l :=
        (Avl.Stands.leans (s := .left) hstands₁).other
      obtain ⟨s₃, top, hlower, he₃, htop, hstands₃⟩ :=
        lower_gives hlean (by omega) hnodup
          (by rw [← Side.other, Avl.fork_other]; exact hbound)
      refine ⟨s₃, top, hheight.bind (hbalance.bind ?_), he₁₂.trans he₃, htop, hstands₃⟩
      rw [if_neg (by omega), if_pos (by omega)]
      exact hlower
    next hright =>
      refine ⟨s₂, k, hheight.bind (hbalance.bind ?_), he₁₂, rfl, hstands₁⟩
      rw [if_neg (by omega), if_neg (by omega)]
      exact gives_pure k

/-- Balancing the node of a frame. -/
theorem regrow_gives {f : Avl.Frame} {x : Avl}
    (h : Avl.Leans (s.sees t c) f.side x f.key f.payload f.sibling)
    (hnodup : (f.fill x).keys.Nodup) (hx : x.Balanced) (hsib : f.sibling.Balanced) :
    ∃ s' top, Gives c (t.rebalance f.key) s top s' ∧ Evolves t c (f.fill x).keys s s' ∧
      (f.regrow x).root = some top ∧ (f.regrow x).Stands (s'.sees t c) := by
  obtain ⟨k, p, side, sib⟩ := f
  cases side with
  | left => exact rebalance_gives h hnodup hx hsib
  | right => exact rebalance_gives h.other hnodup hsib hx

/-- One step of the way back up: a frame gets a subtree and its node is balanced. -/
theorem climb_gives {f : Avl.Frame} {x : Avl} (hf : f.Leans (s.sees t c))
    (hstands : x.Stands (s.sees t c)) (hnodup : (f.fill x).keys.Nodup) (hx : x.Balanced)
    (hsib : f.sibling.Balanced) :
    ∃ s₁ s' top, Gives c (t.setChild f.key f.side x.root) s () s₁ ∧
      Gives c (t.rebalance f.key) s₁ top s' ∧ Evolves t c (f.fill x).keys s s' ∧
      (f.regrow x).root = some top ∧ (f.regrow x).Stands (s'.sees t c) := by
  obtain ⟨⟨n, hn, hp, hc⟩, hs_sib⟩ := hf
  obtain ⟨-, -, hkx, hks, -⟩ := Avl.nodup_fork.mp hnodup
  obtain ⟨s₁, hset, he₁, hn₁⟩ := setChild_gives hn f.side x.root
  have hlean : Avl.Leans (s₁.sees t c) f.side x f.key f.payload f.sibling := by
    refine ⟨⟨_, hn₁, ?_, Node.child_setChild .., ?_⟩, he₁.stands_of_notMem hstands hkx,
      he₁.stands_of_notMem hs_sib hks⟩
    · rw [Node.payload_setChild, hp]
    · rw [Node.child_other_setChild, hc]
  obtain ⟨s₂, top, hgrow, he₂, htop, hstands₂⟩ := regrow_gives hlean hnodup hx hsib
  refine ⟨s₁, s₂, top, hset, hgrow, (he₁.mono fun j hj => ?_).trans he₂, htop, hstands₂⟩
  exact Avl.mem_keys_fork.mpr (.inr (.inl (List.mem_singleton.mp hj)))

/-- The way back up through the records is the way back up the tree. -/
theorem rebuild_gives {fs : List Avl.Frame} {x y : Avl}
    (hfs : ∀ f ∈ fs, f.Leans (s.sees t c)) (hx : x.Stands (s.sees t c))
    (hnodup : (Avl.plug fs x).keys.Nodup) (hb : x.Balanced) (hy : (Avl.plug fs y).Balanced)
    (hnear : Avl.Near x y) :
    ∃ s', Gives c (t.rebuild (Avl.way fs) x.root) s (Avl.regrow fs x).root s' ∧
      Evolves t c (Avl.plug fs x).keys s s' ∧ (Avl.regrow fs x).Stands (s'.sees t c) := by
  induction fs generalizing s x y with
  | nil => exact ⟨s, gives_pure _, .refl _ _, hx⟩
  | cons f fs ih =>
      rw [Avl.plug] at hnodup
      obtain ⟨hfill, haway⟩ := Avl.disjoint_of_nodup hnodup
      obtain ⟨-, -, -, hbs⟩ := (Avl.balanced_fork ..).mp (Avl.balanced_of_plug hy)
      obtain ⟨s₁, s₂, top, hset, hgrow, he, htop, hstands⟩ :=
        climb_gives (hfs f (.head _)) hx hfill hb hbs
      have hfs₂ := he.frames (fun g hg => hfs g (.tail _ hg)) haway
      obtain ⟨hbal, hnear'⟩ := Avl.Frame.regrow_balanced (Avl.balanced_of_plug hy) hb hnear
      have hkeys : (Avl.plug fs (f.regrow x)).keys = (Avl.plug fs (f.fill x)).keys := by
        rw [Avl.keys_plug, Avl.keys_plug, Avl.Frame.keys_regrow]
      obtain ⟨s₃, hrebuild, he₃, hstands₃⟩ :=
        ih hfs₂ hstands (hkeys ▸ hnodup) hbal hy hnear'
      rw [htop] at hrebuild
      rw [hkeys] at he₃
      refine ⟨s₃, hset.bind (hgrow.bind hrebuild), (he.mono fun j hj => ?_).trans he₃, hstands₃⟩
      rw [Avl.plug, Avl.keys_plug]
      exact List.mem_append_left _ (List.mem_append_right _ hj)

end Tree

end Leaderboard
