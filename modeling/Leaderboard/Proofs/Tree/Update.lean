import Leaderboard.Proofs.Tree.Flush
import Leaderboard.Proofs.Tree.Steady

/-!
# What inserting and deleting come to

On contents that hold a tree, `Tree.insert` and `Tree.delete` leave contents that
hold `Avl.insert` and `Avl.delete` of it (`Tree.insert_eval`, `Tree.delete_eval`).
They fail at nothing, and put nothing but records of the tree.  Where there is
nothing to insert or delete they put nothing at all.

All they do before the flush is done in a session.  `Tree.Regrown` says that it sees
the changed tree, and `Tree.insert_session` and `Tree.delete_session` tell which puts
the flush makes of it.

Each part of the two operations does to the records what its counterpart does to
the tree: `Tree.descend` follows `Avl.locate`, `Tree.leftmost` follows
`Avl.first`, and `Tree.splice` follows `Avl.splice`.
-/

namespace Leaderboard

open Session (Evolves flushPuts)
open SessionM (Gives gives_pure gives_modify gives_lift)

namespace Tree

variable {t : Tree} {c : Contents} {s : Session}

/-! ## Going down -/

/-- Going down the records ends where the tree has the place of the key. -/
theorem descend_gives (key : RankKey) {x : Avl} (h : x.Stands (s.sees t c)) (fuel : Nat)
    (hfuel : x.height ≤ fuel) (fs : List Avl.Frame) :
    ∃ s', Gives c (t.descend key fuel x.root (Avl.way fs)) s
        (Avl.way (Avl.locate key x fs).1, (Avl.locate key x fs).2.root.bind (s.sees t c)) s' ∧
      Evolves t c [] s s' := by
  induction x generalizing s fuel fs with
  | nil =>
      refine ⟨s, ?_, .refl _ _⟩
      cases fuel <;> exact gives_pure _
  | node l k p r ihl ihr =>
      obtain ⟨⟨height, hn, -⟩, hl, hr⟩ := h
      rw [Avl.height_node] at hfuel
      obtain ⟨s₁, hfetch, he₁⟩ := fetch_gives hn
      cases fuel with
      | zero => omega
      | succ fuel =>
          rw [Avl.locate]
          cases hc : compare key k with
          | eq =>
              refine ⟨s₁, hfetch.bind ?_, he₁⟩
              rw [hc, Avl.root, Option.bind_some, hn]
              exact gives_pure _
          | lt =>
              rw [← he₁.sees_same] at hl ⊢
              obtain ⟨s₂, hdescend, he₂⟩ := ihl hl fuel (by omega) (⟨k, p, .left, r⟩ :: fs)
              refine ⟨s₂, hfetch.bind ?_, he₁.trans he₂⟩
              rw [hc]
              exact hdescend
          | gt =>
              rw [← he₁.sees_same] at hr ⊢
              obtain ⟨s₂, hdescend, he₂⟩ := ihr hr fuel (by omega) (⟨k, p, .right, l⟩ :: fs)
              refine ⟨s₂, hfetch.bind ?_, he₁.trans he₂⟩
              rw [hc]
              exact hdescend

/-- Going down to the left ends at the smallest key. -/
theorem leftmost_gives {l : Avl} {k : RankKey} {p : String} {r : Avl}
    (h : (Avl.node l k p r).Stands (s.sees t c)) (fuel : Nat) (hfuel : l.height < fuel)
    (fs : List Avl.Frame) :
    ∃ s', Gives c (t.leftmost fuel k (fs.map Avl.Frame.key)) s
        ((Avl.first l k p r fs).1.map Avl.Frame.key, (Avl.first l k p r fs).2.1) s' ∧
      Evolves t c [] s s' := by
  induction l generalizing s k p r fuel fs with
  | nil =>
      obtain ⟨⟨height, hn, -⟩, -, -⟩ := h
      obtain ⟨s₁, hfetch, he₁⟩ := fetch_gives hn
      cases fuel with
      | zero => omega
      | succ fuel => exact ⟨s₁, hfetch.bind (gives_pure _), he₁⟩
  | node l' k' p' r' ihl ihr =>
      obtain ⟨⟨height, hn, -⟩, hl, -⟩ := h
      obtain ⟨s₁, hfetch, he₁⟩ := fetch_gives hn
      rw [Avl.height_node] at hfuel
      rw [← he₁.sees_same] at hl
      cases fuel with
      | zero => omega
      | succ fuel =>
          obtain ⟨s₂, hleft, he₂⟩ := ihl hl fuel (by omega) (⟨k, p, .left, r⟩ :: fs)
          exact ⟨s₂, hfetch.bind hleft, he₁.trans he₂⟩

theorem way_first (l : Avl) (k : RankKey) (p : String) (r : Avl) (fs : List Avl.Frame)
    (h : Avl.way fs = (fs.map Avl.Frame.key).map (·, Side.left)) :
    Avl.way (Avl.first l k p r fs).1 =
      ((Avl.first l k p r fs).1.map Avl.Frame.key).map (·, Side.left) := by
  induction l generalizing k p r fs with
  | nil => exact h
  | node l' k' p' r' ihl ihr =>
      apply ihl
      exact congrArg ((k, Side.left) :: ·) h

/-! ## Taking children together -/

/-- Putting a node without a left subtree in the place of another one: it gets both children
of that one, and the way down to it stays. -/
theorem relink_gives {passed : List Avl.Frame} {k : RankKey} {p : String} {rest left : Avl}
    (h : (Avl.plug passed (.node .nil k p rest)).Stands (s.sees t c))
    (hnodup : (Avl.plug passed (.node .nil k p rest)).keys.Nodup)
    (hleft : left.Stands (s.sees t c)) (hk : k ∉ left.keys) (right : NodeRef) :
    ∃ n s₁ s₂ s', Gives c (t.fetch k) s n s₁ ∧ n.right = rest.root ∧
      Gives c (t.setChild k .left left.root) s₁ () s₂ ∧
      Gives c (t.setChild k .right right) s₂ () s' ∧ Evolves t c [k] s s' ∧
      (∀ f ∈ passed, f.Leans (s'.sees t c)) ∧
      (Avl.Frame.mk k p .right left).Leans (s'.sees t c) ∧ rest.Stands (s'.sees t c) := by
  obtain ⟨hpassed, hnode⟩ := Avl.leans_of_plug h
  obtain ⟨hsub, haway⟩ := Avl.disjoint_of_nodup hnodup
  obtain ⟨⟨height, hn, -⟩, -, hrest⟩ := hnode
  obtain ⟨-, -, -, hkr, -⟩ := (Avl.nodup_fork (s := .left)).mp hsub
  obtain ⟨s₁, hfetch, he₁⟩ := fetch_gives hn
  obtain ⟨s₂, hset₂, he₂, hn₂⟩ :=
    setChild_gives (he₁.sees_some hn (by simp)) .left left.root
  obtain ⟨s₃, hset₃, he₃, hn₃⟩ := setChild_gives hn₂ .right right
  have he : Evolves t c [k] s s₃ := ((he₁.mono (by simp)).trans he₂).trans he₃
  have haway' : ∀ f ∈ passed, f.key ∉ [k] ∧ ∀ j ∈ f.sibling.keys, j ∉ [k] := by
    intro f hf
    obtain ⟨hfk, hfs⟩ := haway f hf
    simp only [Avl.keys_node, Avl.keys_nil, List.nil_append, List.mem_cons, not_or] at hfk hfs
    simp only [List.mem_singleton]
    exact ⟨hfk.1, fun j hj => (hfs j hj).1⟩
  exact ⟨_, s₁, s₂, s₃, hfetch, rfl, hset₂, hset₃, he, he.frames hpassed haway',
    ⟨⟨_, hn₃, rfl, rfl⟩, he.stands_of_notMem hleft hk⟩, he.stands_of_notMem hrest hkr⟩

/-- The way to a removed node is as before if only nodes below it are not. -/
theorem frames_above {s' : Session} {fs : List Avl.Frame} {l : Avl} {key : RankKey} {p : String}
    {r : Avl} (he : Evolves t c (l.keys ++ r.keys) s s') (hfs : ∀ f ∈ fs, f.Leans (s.sees t c))
    (hnodup : (Avl.plug fs (.node l key p r)).keys.Nodup) :
    ∀ f ∈ fs, f.Leans (s'.sees t c) := by
  have hkeys : ∀ j ∈ l.keys ++ r.keys, j ∈ (Avl.node l key p r).keys := by
    intro j hj
    rw [List.mem_append] at hj
    rw [Avl.keys_node, List.mem_append]
    exact hj.imp_right (.tail _)
  obtain ⟨-, haway⟩ := Avl.disjoint_of_nodup hnodup
  refine he.frames hfs fun f hf => ?_
  obtain ⟨hfk, hsib⟩ := haway f hf
  exact ⟨fun h => hfk (hkeys _ h), fun j hj h => hsib j hj (hkeys _ h)⟩

/-- The next node is the right child: it gets the left subtree and is balanced. -/
theorem splice_near_gives {fs : List Avl.Frame} {l : Avl} {key : RankKey} {p : String}
    {k : RankKey} {q : String} {rest : Avl} {n : Node} {lk : RankKey}
    (hfs : ∀ f ∈ fs, f.Leans (s.sees t c)) (hl : l.Stands (s.sees t c))
    (hr : (Avl.node .nil k q rest).Stands (s.sees t c))
    (hnodup : (Avl.plug fs (.node l key p (.node .nil k q rest))).keys.Nodup)
    (hbl : l.Balanced) (hbr : rest.Balanced) (hleft : n.left = some lk) (hlk : l.root = some lk)
    (hright : n.right = some k) (hreach : 0 < t.reach) :
    ∃ s', Gives c (t.splice n (Avl.way fs)) s (Avl.way fs, (l.balance k q rest).root) s' ∧
      Evolves t c (l.keys ++ (Avl.node .nil k q rest).keys) s s' ∧
      (∀ f ∈ fs, f.Leans (s'.sees t c)) ∧ (l.balance k q rest).Stands (s'.sees t c) := by
  have hfill : ((Avl.Frame.mk k q .left rest).fill l).keys =
      l.keys ++ (Avl.node .nil k q rest).keys := by
    simp [Avl.Frame.fill, Avl.fork]
  have hfill_nodup : ((Avl.Frame.mk k q .left rest).fill l).keys.Nodup := by
    have hsub := (Avl.disjoint_of_nodup hnodup).1
    rw [Avl.keys_node] at hsub
    rw [hfill]
    exact hsub.sublist ((List.sublist_cons_self key _).append_left l.keys)
  obtain ⟨s₁, hleftmost, he₁⟩ := leftmost_gives hr t.reach hreach []
  rw [← he₁.sees_same] at hfs hl hr
  obtain ⟨s₂, s₃, top, hset, hgrow, he, htop, hstands⟩ :=
    climb_gives (Avl.Stands.leans (s := .left) hr).frame hl hfill_nodup hbl hbr
  rw [hfill] at he
  rw [hlk] at hset
  refine ⟨s₃, ?_, (he₁.mono (by simp)).trans he, frames_above he hfs hnodup, hstands⟩
  rw [splice, hleft, hright, show (l.balance k q rest).root = some top from htop]
  exact hleftmost.bind (hset.bind (hgrow.bind (gives_pure _)))

/-- The next node is deeper down: it leaves its place to its right subtree and gets the
place of the removed node. -/
theorem splice_far_gives {fs : List Avl.Frame} {l : Avl} {key : RankKey} {p : String}
    {rl : Avl} {rk : RankKey} {rp : String} {rr : Avl} {f : Avl.Frame}
    {passed : List Avl.Frame} {k : RankKey} {q : String} {rest : Avl} {n : Node} {lk : RankKey}
    (hfirst : Avl.first rl rk rp rr [] = (f :: passed, k, q, rest))
    (hfs : ∀ f ∈ fs, f.Leans (s.sees t c)) (hl : l.Stands (s.sees t c))
    (hr : (Avl.node rl rk rp rr).Stands (s.sees t c))
    (hnodup : (Avl.plug fs (.node l key p (.node rl rk rp rr))).keys.Nodup)
    (hleft : n.left = some lk) (hlk : l.root = some lk) (hright : n.right = some rk)
    (hreach : rl.height < t.reach) :
    ∃ s', Gives c (t.splice n (Avl.way fs)) s
        (Avl.way (f :: passed ++ ⟨k, q, .right, l⟩ :: fs), rest.root) s' ∧
      Evolves t c (l.keys ++ (Avl.node rl rk rp rr).keys) s s' ∧
      (∀ g ∈ f :: passed ++ ⟨k, q, .right, l⟩ :: fs, g.Leans (s'.sees t c)) ∧
      rest.Stands (s'.sees t c) := by
  obtain ⟨s₁, hleftmost, he₁⟩ := leftmost_gives hr t.reach hreach []
  have hplug := Avl.plug_first rl rk rp rr []
  have hway := way_first rl rk rp rr [] rfl
  rw [hfirst] at hleftmost hplug hway
  have hplug : Avl.plug (f :: passed) (.node .nil k q rest) = .node rl rk rp rr := hplug
  obtain ⟨-, hr_nodup, -, -, hlr⟩ :=
    (Avl.nodup_fork (s := .left)).mp (Avl.disjoint_of_nodup hnodup).1
  rw [← he₁.sees_same] at hfs hl hr
  rw [← hplug] at hr hr_nodup
  have hkr : k ∈ (Avl.node rl rk rp rr).keys := by
    rw [← hplug, Avl.keys_plug]
    simp
  obtain ⟨m, s₂, s₃, s₄, hfetch, horphan, hset₃, hset₄, he, hpassed, hframe, hrest⟩ :=
    relink_gives hr hr_nodup hl (fun hk => hlr k hk hkr) (some rk)
  rw [hlk] at hset₃
  have he' : Evolves t c (l.keys ++ (Avl.node rl rk rp rr).keys) s₁ s₄ := by
    refine he.mono fun j hj => List.mem_append_right _ ?_
    rw [List.mem_singleton.mp hj]
    exact hkr
  have hway' : Avl.way (f :: passed ++ ⟨k, q, .right, l⟩ :: fs) =
      ((f :: passed).map Avl.Frame.key).map (·, Side.left) ++ (k, .right) :: Avl.way fs := by
    rw [← show Avl.way (f :: passed) = _ from hway, Avl.way, List.map_append]
    rfl
  refine ⟨s₄, ?_, (he₁.mono (by simp)).trans he', fun g hg => ?_, hrest⟩
  · rw [splice, hleft, hright, hway', ← horphan]
    exact hleftmost.bind (hfetch.bind (hset₃.bind (hset₄.bind (gives_pure _))))
  · rcases List.mem_append.mp hg with hg | hg
    · exact hpassed g hg
    · rcases List.mem_cons.mp hg with rfl | hg
      · exact hframe
      · exact frames_above he' hfs hnodup g hg

/-- Taking the children of a removed node together does to the records what it does to the
tree. -/
theorem splice_gives {fs : List Avl.Frame} {l : Avl} {key : RankKey} {p : String} {r : Avl}
    {n : Node} (hx : (Avl.plug fs (.node l key p r)).Stands (s.sees t c))
    (hnodup : (Avl.plug fs (.node l key p r)).keys.Nodup)
    (hb : (Avl.node l key p r).Balanced) (hn : s.sees t c key = some n)
    (hreach : Avl.maxHeight ≤ t.reach) :
    ∃ s', Gives c (t.splice n (Avl.way fs)) s
        (Avl.way (Avl.splice l r fs).1, (Avl.splice l r fs).2.root) s' ∧
      Evolves t c (l.keys ++ r.keys) s s' ∧
      (∀ f ∈ (Avl.splice l r fs).1, f.Leans (s'.sees t c)) ∧
      (Avl.splice l r fs).2.Stands (s'.sees t c) := by
  obtain ⟨hfs, hnode⟩ := Avl.leans_of_plug hx
  obtain ⟨⟨height, hn', -⟩, hl, hr⟩ := hnode
  rw [hn] at hn'
  cases hn'
  cases l with
  | nil =>
      cases r with
      | nil => exact ⟨s, gives_pure _, .refl _ _, hfs, trivial⟩
      | node rl rk rp rr => exact ⟨s, gives_pure _, .refl _ _, hfs, hr⟩
  | node ll lk lp lr =>
      cases r with
      | nil => exact ⟨s, gives_pure _, .refl _ _, hfs, hl⟩
      | node rl rk rp rr =>
          obtain ⟨-, -, hbl, hbr⟩ := hb
          obtain ⟨-, hr_nodup, -⟩ :=
            (Avl.nodup_fork (s := .left)).mp (Avl.disjoint_of_nodup hnodup).1
          have hheight := Avl.height_le_maxHeight hbr hr_nodup
          rw [Avl.height_node] at hheight
          rw [Avl.splice]
          cases hfirst : Avl.first rl rk rp rr [] with
          | mk passed place =>
              obtain ⟨k, q, rest⟩ := place
              cases passed with
              | nil =>
                  have hplug := Avl.plug_first rl rk rp rr []
                  rw [hfirst] at hplug
                  cases hplug
                  exact splice_near_gives hfs hl hr hnodup hbl hbr.2.2.2 rfl rfl rfl (by omega)
              | cons f passed =>
                  exact splice_far_gives hfirst hfs hl hr hnodup rfl rfl rfl (by omega)

/-! ## From the root and back -/

/-- Going down from the root of a tree that the contents hold. -/
theorem descend_root_gives {x : Avl} (h : t.Holds c x) (hreach : Avl.maxHeight ≤ t.reach)
    (key : RankKey) :
    ∃ s, Gives c (t.descend key t.reach x.root []) {}
        (Avl.way (Avl.locate key x []).1, (Avl.locate key x []).2.root.bind (t.stored c)) s ∧
      s.Sound t c ∧ s.sees t c = t.stored c ∧ s.removed = [] ∧ s.dirty = [] := by
  have hheight := Avl.height_le_maxHeight h.balanced h.ordered.nodup
  have hstands := h.stands
  rw [← Session.sees_empty] at hstands
  obtain ⟨s, hdescend, he⟩ := descend_gives key hstands t.reach (hheight.trans hreach) []
  rw [Session.sees_empty] at hdescend
  refine ⟨s, hdescend, he.sound Session.sound_empty, he.sees_same.trans Session.sees_empty,
    he.removed_eq, List.eq_nil_iff_forall_not_mem.mpr fun k hk => ?_⟩
  rcases he.dirty_of k hk with h | h <;> cases h

/-- A session sees a tree and marks only nodes of it, in the order of their keys. -/
structure Regrown (t : Tree) (c : Contents) (x : Avl) (s : Session) : Prop where
  /-- The session is sound. -/
  sound : s.Sound t c
  /-- The session sees the tree. -/
  stands : x.Stands (s.sees t c)
  /-- Only nodes of the tree are marked. -/
  mem_keys : ∀ k ∈ s.dirty, k ∈ x.keys
  /-- The marked keys are in increasing order. -/
  sorted : s.dirty.Pairwise (· < ·)

/-- Writing back a session that sees another tree. -/
theorem holds_flush {x x' : Avl} (h : t.Holds c x) (hs : t.Regrown c x' s)
    (ho : x'.Ordered) (hb : x'.Balanced) (hr : ∀ k ∈ x'.keys, k ∉ s.removed) :
    t.Holds (c.write (flushPuts t s x.root x'.root))
      x' := by
  refine ⟨pointsTo_flush h.points _ s, ?_, ho, hb⟩
  exact hs.stands.congr fun k hk => stored_flush hs.sound _ _ (hr k hk)

/-- An operation whose session has changed the tree. -/
theorem conclude_eval {m : NodeRef → SessionM (Option NodeRef)} {ref newRoot : NodeRef}
    (hroot : t.root.eval c = (.ok ref, [])) (hm : Gives c (m ref) {} (some newRoot) s) :
    (do
      let root ← t.root
      t.conclude root (← (m root).run {})).eval c =
        (.ok true, flushPuts t s ref newRoot) := by
  rw [Access.eval_bind_read hroot, Access.eval_bind_read hm, conclude,
    Access.eval_bind (flush_eval ..)]
  exact congrArg _ (List.append_nil _)

/-! ## Inserting -/

theorem insert_eval_of_none {x : Avl} {key : RankKey} {payload : String} (h : t.Valid c x)
    (hreach : Avl.maxHeight ≤ t.reach) (hx : x.insert key payload = none) :
    (t.insert key payload).eval c = (.ok false, []) := by
  obtain ⟨hholds, hmade⟩ := h
  obtain ⟨s₁, hdescend, -⟩ := descend_root_gives hholds hreach key
  obtain ⟨fs, l, p, r, hlocate, hplug⟩ := Avl.taken_of_insert hx
  have hstands := hholds.stands
  rw [← hplug] at hstands
  obtain ⟨-, ⟨height, hn, -⟩, -⟩ := Avl.leans_of_plug hstands
  rw [hlocate, Avl.root, Option.bind_some, hn] at hdescend
  rw [insert, Access.eval_bind_read (root_eval hholds.points hmade),
    Access.eval_bind_read (a := (none, s₁))]
  · rfl
  · exact hdescend.bind (gives_pure none)

/-- The session of an insert that makes a node. -/
theorem insert_session {x x' : Avl} {key : RankKey} {payload : String} (h : t.Valid c x)
    (hreach : Avl.maxHeight ≤ t.reach) (hp : Codec.Fits payload)
    (hx : x.insert key payload = some x') :
    ∃ s, (t.insert key payload).eval c =
        (.ok true, flushPuts t s x.root x'.root) ∧
      t.Regrown c x' s ∧ s.removed = [] := by
  obtain ⟨hholds, hmade⟩ := h
  obtain ⟨ho', -, -⟩ := Avl.entries_insert hholds.ordered hholds.balanced hx
  obtain ⟨s₁, hdescend, hs₁, hsees, hremoved, hdirty⟩ := descend_root_gives hholds hreach key
  obtain ⟨fs, hlocate, hplug, rfl⟩ := Avl.insert_eq_some hx
  rw [hlocate] at hdescend
  have hnodup := ho'.nodup
  rw [Avl.keys_regrow] at hnodup
  have hfs₁ := hholds.stands
  rw [← hplug, ← hsees] at hfs₁
  -- the new leaf
  obtain ⟨s₂, hstore, he₂, hn₂⟩ :=
    store_gives (t := t) (c := c) (s := s₁) key (n := .leaf payload) fun _ => hp
  have hleaf : (Avl.node .nil key payload .nil).Stands (s₂.sees t c) :=
    ⟨⟨1, hn₂, rfl⟩, trivial, trivial⟩
  have hfs₂ := he₂.frames (Avl.leans_of_plug hfs₁).1 (Avl.disjoint_of_nodup hnodup).2
  -- the way back up
  have hbal := hholds.balanced
  rw [← hplug] at hbal
  obtain ⟨s₃, hrebuild, he₃, hstands₃⟩ := rebuild_gives hfs₂ hleaf hnodup
    ⟨by simp, by simp, trivial, trivial⟩ hbal ⟨by simp, by simp⟩
  have hgives : Gives c (t.inserting key payload x.root) {}
      (some (Avl.regrow fs (.node .nil key payload .nil)).root) s₃ :=
    hdescend.bind (hstore.bind (hrebuild.map some))
  refine ⟨s₃, conclude_eval (root_eval hholds.points hmade) hgives,
    ⟨he₃.sound (he₂.sound hs₁), hstands₃, fun k hk => ?_,
      SessionM.Steady.sorted (t.orderly_closed.inserting key payload x.root)
        List.Pairwise.nil hgives⟩, ?_⟩
  · rw [Avl.keys_regrow]
    rcases he₃.dirty_of k hk with hk | hk
    · rcases he₂.dirty_of k hk with hk | hk
      · rw [hdirty] at hk
        cases hk
      · rw [List.mem_singleton.mp hk, Avl.keys_plug]
        simp
    · exact hk
  · rw [he₃.removed_eq, he₂.removed_eq, hremoved]

theorem insert_eval_of_some {x x' : Avl} {key : RankKey} {payload : String} (h : t.Valid c x)
    (hreach : Avl.maxHeight ≤ t.reach) (hp : Codec.Fits payload)
    (hx : x.insert key payload = some x') :
    ∃ puts, (t.insert key payload).eval c = (.ok true, puts) ∧ t.Own puts ∧
      t.Holds (c.write puts) x' := by
  obtain ⟨ho', hb', -⟩ := Avl.entries_insert h.1.ordered h.1.balanced hx
  obtain ⟨s, heval, hs, hremoved⟩ := insert_session h hreach hp hx
  exact ⟨_, heval, own_flush _ _ _, holds_flush h.1 hs ho' hb' (by simp [hremoved])⟩

/-! ## Deleting -/

theorem delete_eval_of_none {x : Avl} {key : RankKey} (h : t.Valid c x)
    (hreach : Avl.maxHeight ≤ t.reach) (hx : x.delete key = none) :
    (t.delete key).eval c = (.ok false, []) := by
  obtain ⟨hholds, hmade⟩ := h
  obtain ⟨s₁, hdescend, -⟩ := descend_root_gives hholds hreach key
  obtain ⟨fs, hlocate, -⟩ := Avl.empty_of_delete hx
  rw [hlocate] at hdescend
  rw [delete, Access.eval_bind_read (root_eval hholds.points hmade),
    Access.eval_bind_read (a := (none, s₁))]
  · rfl
  · exact hdescend.bind (gives_pure none)

/-- Taking a node out of the records and balancing does what it does to the tree. -/
theorem remove_gives (hs : s.Sound t c) {fs : List Avl.Frame} {l : Avl} {k : RankKey}
    {p : String} {r : Avl} {n : Node} (hx : (Avl.plug fs (.node l k p r)).Stands (s.sees t c))
    (hnodup : (Avl.plug fs (.node l k p r)).keys.Nodup)
    (hb : (Avl.plug fs (.node l k p r)).Balanced) (hn : s.sees t c k = some n)
    (hreach : Avl.maxHeight ≤ t.reach) {gs : List Avl.Frame} {y : Avl}
    (hsplice : Avl.splice l r fs = (gs, y)) (hnodup' : (Avl.plug gs y).keys.Nodup)
    (hk : k ∉ (Avl.plug gs y).keys) :
    ∃ s₁ s₂ s', Gives c (t.splice n (Avl.way fs)) s (Avl.way gs, y.root) s₁ ∧
      Gives c (discard k) s₁ () s₂ ∧
      Gives c (t.rebuild (Avl.way gs) y.root) s₂ (Avl.regrow gs y).root s' ∧
      s'.Sound t c ∧ s'.removed = s.removed ++ [k] ∧
      (∀ j ∈ s'.dirty, (j ∈ s.dirty ∨ j ∈ (Avl.plug fs (.node l k p r)).keys) ∧ j ≠ k ∨
        j ∈ (Avl.plug gs y).keys) ∧
      (Avl.regrow gs y).Stands (s'.sees t c) := by
  -- the children of the removed node
  obtain ⟨s₁, htake, he₁, hgs₁, hy₁⟩ :=
    splice_gives hx hnodup (Avl.balanced_of_plug hb) hn hreach
  obtain ⟨hsub, z, hz, hnear⟩ := Avl.splice_balanced hb
  rw [hsplice] at htake hgs₁ hy₁ hsub hz hnear
  -- the removed node
  obtain ⟨s₂, hdiscard, hremoved₂, hdirty₂, hsees₂, hsound₂⟩ := discard_gives (t := t) (c := c) k s₁
  obtain ⟨hky, hkgs⟩ := Avl.notMem_of_plug hk
  have hgs₂ := Avl.frames_congr hsees₂ hgs₁ hkgs
  have hy₂ : y.Stands (s₂.sees t c) := by
    refine hy₁.congr fun j hj => hsees₂ j fun hjk => ?_
    rw [List.mem_singleton] at hjk
    exact hky (hjk ▸ hj)
  -- the way back up
  have hs₂ := hsound₂ (he₁.sound hs)
  obtain ⟨s₃, hrebuild, he₃, hstands₃⟩ := rebuild_gives hgs₂ hy₂ hnodup' hsub hz hnear
  refine ⟨s₁, s₂, s₃, htake, hdiscard, hrebuild, he₃.sound hs₂, ?_, fun j hj => ?_, hstands₃⟩
  · rw [he₃.removed_eq, hremoved₂, he₁.removed_eq]
  · refine (he₃.dirty_of j hj).imp_left fun hj => ?_
    obtain ⟨hj, hjk⟩ := hdirty₂ j hj
    refine ⟨(he₁.dirty_of j hj).imp_right fun hj => ?_, hjk⟩
    rw [Avl.keys_plug, Avl.keys_node]
    rw [List.mem_append] at hj
    simp only [List.mem_append, List.mem_cons]
    exact .inl (.inr (hj.imp_right .inr))

/-- The session of a delete that removes a node. -/
theorem delete_session {x x' : Avl} {key : RankKey} (h : t.Valid c x)
    (hreach : Avl.maxHeight ≤ t.reach) (hx : x.delete key = some x') :
    ∃ s, (t.delete key).eval c =
        (.ok true, flushPuts t s x.root x'.root) ∧
      t.Regrown c x' s ∧ s.removed = [key] := by
  obtain ⟨hholds, hmade⟩ := h
  obtain ⟨ho', -, -⟩ := Avl.entries_delete hholds.ordered hholds.balanced hx
  have hmem : ∀ j, j ∈ x'.keys ↔ j ∈ x.keys ∧ j ≠ key :=
    Avl.mem_keys_delete hholds.ordered hholds.balanced hx
  obtain ⟨s₁, hdescend, hs₁, hsees, hremoved, hdirty⟩ := descend_root_gives hholds hreach key
  obtain ⟨fs, l, p, r, hlocate, hplug, rfl⟩ := Avl.delete_eq_some hx
  generalize hsplice : Avl.splice l r fs = place at ho' hmem ⊢
  obtain ⟨gs, y⟩ := place
  dsimp only at ho' hmem ⊢
  have hnodup := hholds.ordered.nodup
  have hbal := hholds.balanced
  have hstands := hholds.stands
  rw [← hplug] at hnodup hbal hstands
  obtain ⟨-, ⟨height, hn, -⟩, -⟩ := Avl.leans_of_plug hstands
  rw [hlocate, Avl.root, Option.bind_some, hn] at hdescend
  rw [← hsees] at hstands hn
  have hnodup' := ho'.nodup
  rw [Avl.keys_regrow] at hnodup' hmem
  obtain ⟨s₂, s₃, s₄, htake, hdiscard, hrebuild, hs₄, hremoved₄, hdirty₄, hstands₄⟩ :=
    remove_gives hs₁ hstands hnodup hbal hn hreach hsplice hnodup'
      fun hk => ((hmem key).mp hk).2 rfl
  have hgives : Gives c (t.deleting key x.root) {} (some (Avl.regrow gs y).root) s₄ :=
    hdescend.bind (htake.bind (hdiscard.bind (hrebuild.map some)))
  refine ⟨s₄, conclude_eval (root_eval hholds.points hmade) hgives,
    ⟨hs₄, hstands₄, fun j hj => ?_,
      SessionM.Steady.sorted (t.orderly_closed.deleting key x.root) List.Pairwise.nil
        hgives⟩, ?_⟩
  · rw [Avl.keys_regrow]
    rcases hdirty₄ j hj with ⟨hj | hj, hjk⟩ | hj
    · rw [hdirty] at hj
      cases hj
    · exact (hmem j).mpr ⟨hplug ▸ hj, hjk⟩
    · exact hj
  · rw [hremoved₄, hremoved, List.nil_append]

theorem delete_eval_of_some {x x' : Avl} {key : RankKey} (h : t.Valid c x)
    (hreach : Avl.maxHeight ≤ t.reach) (hx : x.delete key = some x') :
    ∃ puts, (t.delete key).eval c = (.ok true, puts) ∧ t.Own puts ∧
      t.Holds (c.write puts) x' := by
  obtain ⟨ho', hb', -⟩ := Avl.entries_delete h.1.ordered h.1.balanced hx
  obtain ⟨s, heval, hs, hremoved⟩ := delete_session h hreach hx
  refine ⟨_, heval, own_flush _ _ _, holds_flush h.1 hs ho' hb' fun k hk hkr => ?_⟩
  rw [hremoved, List.mem_singleton] at hkr
  exact ((Avl.mem_keys_delete h.1.ordered h.1.balanced hx k).mp hk).2 hkr

end Tree

end Leaderboard
