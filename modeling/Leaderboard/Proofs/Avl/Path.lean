import Leaderboard.Proofs.Avl.Basic
import Leaderboard.Tree.Session

/-!
# Ways down an AVL tree

A way down a tree is the list of its `Avl.Frame`s, the last one first: each is a
node that was passed, with the subtree that was not taken.  `Avl.plug` puts a
tree at the end of a way down, and `Avl.regrow` does so and balances every node
on the way back up.

What is left of the way and what is right of it never changes (`entries_plug`,
`entries_regrow`).  If a balanced tree at the end is replaced by one whose height
differs by at most one, then `regrow` leaves the whole tree balanced, and its
height differs by at most one too (`regrow_balanced`).  This covers inserting
and deleting alike, also where a deletion joins two ways into one.

`Avl.insert` and `Avl.delete` are the two operations.  Their effect on the entries
is `entries_insert` and `entries_delete`.
-/

namespace Leaderboard

namespace Avl

/-! ## Frames -/

/-- A node on a way down. -/
structure Frame where
  /-- Its key. -/
  key : RankKey
  /-- Its payload. -/
  payload : String
  /-- The side taken. -/
  side : Side
  /-- The subtree on the other side. -/
  sibling : Avl

namespace Frame

/-- The node with a tree on the side taken. -/
def fill (f : Frame) (x : Avl) : Avl := fork f.side x f.key f.payload f.sibling

/-- The node with a tree on the side taken, balanced. -/
def regrow (f : Frame) (x : Avl) : Avl :=
  match f.side with
  | .left => balance x f.key f.payload f.sibling
  | .right => balance f.sibling f.key f.payload x

/-- The entries that come before the side taken. -/
def before (f : Frame) : List Placement :=
  match f.side with
  | .left => []
  | .right => f.sibling.entries ++ [(f.key, f.payload)]

/-- The entries that come after the side taken. -/
def after (f : Frame) : List Placement :=
  match f.side with
  | .left => (f.key, f.payload) :: f.sibling.entries
  | .right => []

theorem entries_fill (f : Frame) (x : Avl) :
    (f.fill x).entries = f.before ++ x.entries ++ f.after := by
  obtain ⟨k, p, s, sib⟩ := f
  cases s <;> simp [fill, fork, before, after]

theorem entries_regrow (f : Frame) (x : Avl) : (f.regrow x).entries = (f.fill x).entries := by
  obtain ⟨k, p, s, sib⟩ := f
  cases s <;> simp [fill, fork, regrow]

end Frame

/-- A tree at the end of a way down. -/
def plug : List Frame → Avl → Avl
  | [], x => x
  | f :: fs, x => plug fs (f.fill x)

/-- A tree at the end of a way down, with the nodes of the way balanced. -/
def regrow : List Frame → Avl → Avl
  | [], x => x
  | f :: fs, x => regrow fs (f.regrow x)

/-- The entries to the left of a way down. -/
def before : List Frame → List Placement
  | [] => []
  | f :: fs => before fs ++ f.before

/-- The entries to the right of a way down. -/
def after : List Frame → List Placement
  | [] => []
  | f :: fs => f.after ++ after fs

/-- The nodes of a way down and the sides taken. -/
def way (fs : List Frame) : Tree.Path := fs.map fun f => (f.key, f.side)

theorem plug_append (fs gs : List Frame) (x : Avl) : plug (fs ++ gs) x = plug gs (plug fs x) := by
  induction fs generalizing x with
  | nil => rfl
  | cons f fs ih => exact ih _

theorem entries_plug (fs : List Frame) (x : Avl) :
    (plug fs x).entries = before fs ++ x.entries ++ after fs := by
  induction fs generalizing x with
  | nil => simp [plug, before, after]
  | cons f fs ih => simp [plug, before, after, ih, Frame.entries_fill]

theorem entries_regrow (fs : List Frame) (x : Avl) :
    (regrow fs x).entries = before fs ++ x.entries ++ after fs := by
  induction fs generalizing x with
  | nil => simp [regrow, before, after]
  | cons f fs ih => simp [regrow, before, after, ih, Frame.entries_regrow, Frame.entries_fill]

theorem before_append (fs gs : List Frame) : before (fs ++ gs) = before gs ++ before fs := by
  induction fs with
  | nil => simp [before]
  | cons f fs ih => simp [before, ih]

theorem after_append (fs gs : List Frame) : after (fs ++ gs) = after fs ++ after gs := by
  induction fs with
  | nil => simp [after]
  | cons f fs ih => simp [after, ih]

theorem keys_plug (fs : List Frame) (x : Avl) :
    (plug fs x).keys = (before fs).map Prod.fst ++ x.keys ++ (after fs).map Prod.fst := by
  simp [keys, entries_plug]

theorem keys_regrow (fs : List Frame) (x : Avl) : (regrow fs x).keys = (plug fs x).keys := by
  rw [keys, entries_regrow, keys, entries_plug]

theorem Frame.keys_regrow (f : Frame) (x : Avl) : (f.regrow x).keys = (f.fill x).keys := by
  rw [keys, Frame.entries_regrow, keys]

/-! ## Balance on the way back up -/

/-- The heights of two trees differ by at most one. -/
def Near (x y : Avl) : Prop := x.height ≤ y.height + 1 ∧ y.height ≤ x.height + 1

theorem balanced_of_plug {fs : List Frame} {x : Avl} (h : (plug fs x).Balanced) :
    x.Balanced := by
  induction fs generalizing x with
  | nil => exact h
  | cons f fs ih =>
      have hf := (balanced_fork _ _ _ _ _).mp (ih h)
      exact hf.2.2.1

/-- Balancing one node of the way, whose subtree changed its height by at most
one. -/
theorem Frame.regrow_balanced {f : Frame} {x y : Avl} (hy : (f.fill y).Balanced)
    (hx : x.Balanced) (h : Near x y) :
    (f.regrow x).Balanced ∧ Near (f.regrow x) (f.fill y) := by
  obtain ⟨k, p, s, sib⟩ := f
  obtain ⟨h₁, h₂⟩ := h
  obtain ⟨h₃, h₄, -, hs⟩ := (balanced_fork _ _ _ _ _).mp hy
  dsimp only at h₃ h₄ hs
  cases s with
  | left =>
      refine ⟨balanced_balance hx hs (by omega) (by omega) k p, ?_⟩
      have hh := height_balance hx hs (by omega) (by omega) k p
      simp only [Near, Frame.regrow, Frame.fill, height_fork]
      omega
  | right =>
      refine ⟨balanced_balance hs hx (by omega) (by omega) k p, ?_⟩
      have hh := height_balance hs hx (by omega) (by omega) k p
      simp only [Near, Frame.regrow, Frame.fill, height_fork]
      omega

/-- Balancing all nodes of the way. -/
theorem regrow_balanced {fs : List Frame} {x y : Avl} (hy : (plug fs y).Balanced)
    (hx : x.Balanced) (h : Near x y) :
    (regrow fs x).Balanced ∧ Near (regrow fs x) (plug fs y) := by
  induction fs generalizing x y with
  | nil => exact ⟨hx, h⟩
  | cons f fs ih =>
      obtain ⟨hb, hnear⟩ := Frame.regrow_balanced (balanced_of_plug hy) hx h
      exact ih hy hb hnear

/-- Whether a tree is balanced depends on the height at the end of a way, and on
whether the tree there is balanced. -/
theorem plug_balanced {fs : List Frame} {x y : Avl} (hy : (plug fs y).Balanced)
    (hx : x.Balanced) (h : x.height = y.height) : (plug fs x).Balanced := by
  induction fs generalizing x y with
  | nil => exact hx
  | cons f fs ih =>
      obtain ⟨h₁, h₂, -, hs⟩ := (balanced_fork _ _ _ _ _).mp (balanced_of_plug hy)
      refine ih hy ?_ (by rw [Frame.fill, Frame.fill, height_fork, height_fork, h])
      exact (balanced_fork _ _ _ _ _).mpr ⟨by omega, by omega, hx, hs⟩

/-! ## The place of a key -/

/-- The way down to the place of a key, and the subtree there. -/
def locate (key : RankKey) : Avl → List Frame → List Frame × Avl
  | nil, fs => (fs, nil)
  | node l k p r, fs =>
      match compare key k with
      | .eq => (fs, node l k p r)
      | .lt => locate key l (⟨k, p, .left, r⟩ :: fs)
      | .gt => locate key r (⟨k, p, .right, l⟩ :: fs)

theorem plug_locate (key : RankKey) (t : Avl) (fs : List Frame) :
    plug (locate key t fs).1 (locate key t fs).2 = plug fs t := by
  induction t generalizing fs with
  | nil => rfl
  | node l k p r ihl ihr =>
      rw [locate]
      cases compare key k with
      | eq => rfl
      | lt => exact ihl _
      | gt => exact ihr _

/-- At the place of a key is either nothing or a node with the key. -/
theorem locate_root (key : RankKey) (t : Avl) (fs : List Frame) :
    (locate key t fs).2 = nil ∨ ∃ l p r, (locate key t fs).2 = node l key p r := by
  induction t generalizing fs with
  | nil => exact .inl rfl
  | node l k p r ihl ihr =>
      rw [locate]
      cases hc : compare key k with
      | eq =>
          have hk : key = k := Std.LawfulEqOrd.eq_of_compare hc
          subst hk
          exact .inr ⟨l, p, r, rfl⟩
      | lt => exact ihl _
      | gt => exact ihr _

theorem locate_cases (key : RankKey) (t : Avl) :
    (∃ fs, locate key t [] = (fs, nil) ∧ plug fs nil = t) ∨
      ∃ fs l p r, locate key t [] = (fs, node l key p r) ∧ plug fs (node l key p r) = t := by
  have hplug : plug (locate key t []).1 (locate key t []).2 = t := plug_locate key t []
  have hroot := locate_root key t []
  generalize locate key t [] = place at hplug hroot ⊢
  obtain ⟨fs, x⟩ := place
  dsimp only at hplug hroot
  obtain rfl | ⟨l, p, r, rfl⟩ := hroot
  · exact .inl ⟨fs, rfl, hplug⟩
  · exact .inr ⟨fs, l, p, r, rfl, hplug⟩

/-- What is left of the place of a key is smaller, and what is right of it
larger. -/
theorem locate_between (key : RankKey) {t : Avl} (fs : List Frame) (ht : t.Ordered)
    (hb : ∀ e ∈ before fs, e.1 < key) (ha : ∀ e ∈ after fs, key < e.1) :
    (∀ e ∈ before (locate key t fs).1, e.1 < key) ∧
      ∀ e ∈ after (locate key t fs).1, key < e.1 := by
  induction t generalizing fs with
  | nil => exact ⟨hb, ha⟩
  | node l k p r ihl ihr =>
      obtain ⟨hl, hr, hlk, hkr⟩ := ordered_node.mp ht
      rw [locate]
      cases hc : compare key k with
      | eq => exact ⟨hb, ha⟩
      | lt =>
          have hlt : key < k := RankKey.compare_lt.mp hc
          refine ihl _ hl ?_ ?_
          · simpa [before, Frame.before] using hb
          · intro e he
            simp only [after, Frame.after, List.mem_append, List.mem_cons] at he
            rcases he with (rfl | he) | he
            · exact hlt
            · have hke := hkr e.1 (List.mem_map_of_mem he)
              exact RankKey.lt_trans hlt hke
            · exact ha e he
      | gt =>
          have hgt : k < key := RankKey.compare_gt.mp hc
          refine ihr _ hr ?_ ?_
          · intro e he
            simp only [before, Frame.before, List.mem_append, List.mem_singleton] at he
            rcases he with he | he | rfl
            · exact hb e he
            · have hek := hlk e.1 (List.mem_map_of_mem he)
              exact RankKey.lt_trans hek hgt
            · exact hgt
          · simpa [after, Frame.after] using ha

/-- The way down to the smallest key of a node, and the node there without its
left subtree, which is empty. -/
def first : Avl → RankKey → String → Avl → List Frame → List Frame × RankKey × String × Avl
  | nil, k, p, r, fs => (fs, k, p, r)
  | node l k p r, k', p', r', fs => first l k p r (⟨k', p', .left, r'⟩ :: fs)

theorem plug_first (l : Avl) (k : RankKey) (p : String) (r : Avl) (fs : List Frame) :
    plug (first l k p r fs).1
        (node nil (first l k p r fs).2.1 (first l k p r fs).2.2.1 (first l k p r fs).2.2.2) =
      plug fs (node l k p r) := by
  induction l generalizing k p r fs with
  | nil => rfl
  | node l' k' p' r' ihl ihr => exact ihl k' p' r' _

/-- Nothing is left of the way down to the smallest key. -/
theorem before_first (l : Avl) (k : RankKey) (p : String) (r : Avl) (fs : List Frame) :
    before (first l k p r fs).1 = before fs := by
  induction l generalizing k p r fs with
  | nil => rfl
  | node l' k' p' r' ihl ihr =>
      rw [first, ihl]
      simp [before, Frame.before]

/-! ## Inserting -/

/-- The tree with a new key, if it does not have the key. -/
def insert (t : Avl) (key : RankKey) (payload : String) : Option Avl :=
  match locate key t [] with
  | (fs, nil) => some (regrow fs (node nil key payload nil))
  | (_, node ..) => none

/-- A new key comes to its place, which was empty. -/
theorem insert_eq_some {t t' : Avl} {key : RankKey} {payload : String}
    (h : t.insert key payload = some t') :
    ∃ fs, locate key t [] = (fs, nil) ∧ plug fs nil = t ∧
      t' = regrow fs (node nil key payload nil) := by
  rw [insert] at h
  obtain ⟨fs, hlocate, hplug⟩ | ⟨fs, l, p, r, hlocate, -⟩ := locate_cases key t
  · rw [hlocate] at h
    cases h
    exact ⟨fs, hlocate, hplug, rfl⟩
  · rw [hlocate] at h
    cases h

/-- A key is not inserted again: its place is taken. -/
theorem taken_of_insert {t : Avl} {key : RankKey} {payload : String}
    (h : t.insert key payload = none) :
    ∃ fs l p r, locate key t [] = (fs, node l key p r) ∧ plug fs (node l key p r) = t := by
  rw [insert] at h
  obtain ⟨fs, hlocate, -⟩ | htaken := locate_cases key t
  · rw [hlocate] at h
    cases h
  · exact htaken

/-- Inserting adds one entry in its place, and keeps the tree balanced and in
order. -/
theorem entries_insert {t t' : Avl} {key : RankKey} {payload : String}
    (ho : t.Ordered) (hb : t.Balanced) (h : t.insert key payload = some t') :
    t'.Ordered ∧ t'.Balanced ∧
      ∃ a b, t.entries = a ++ b ∧ t'.entries = a ++ (key, payload) :: b := by
  have hbetween := locate_between key [] ho (by simp [before]) (by simp [after])
  obtain ⟨fs, hlocate, rfl, rfl⟩ := insert_eq_some h
  rw [hlocate] at hbetween
  have hentries : (plug fs nil).entries = before fs ++ after fs := by
    rw [entries_plug]
    simp
  have hentries' : (regrow fs (node nil key payload nil)).entries =
      before fs ++ (key, payload) :: after fs := by
    rw [entries_regrow]
    simp
  have hleaf : (node nil key payload nil).Balanced := ⟨by simp, by simp, trivial, trivial⟩
  have hnear : Near (node nil key payload nil) nil := ⟨by simp, by simp⟩
  refine ⟨?_, (regrow_balanced hb hleaf hnear).1, before fs, after fs, hentries, hentries'⟩
  rw [Ordered, keys, hentries, List.map_append, List.pairwise_append] at ho
  rw [Ordered, keys, hentries', List.map_append, List.map_cons, List.pairwise_append,
    List.pairwise_cons]
  refine ⟨ho.1, ⟨?_, ho.2.1⟩, ?_⟩
  · intro k hk
    obtain ⟨e, he, rfl⟩ := List.mem_map.mp hk
    exact hbetween.2 e he
  · intro k hk j hj
    obtain ⟨e, he, rfl⟩ := List.mem_map.mp hk
    rcases List.mem_cons.mp hj with rfl | hj
    · exact hbetween.1 e he
    · exact ho.2.2 _ (List.mem_map_of_mem he) j hj

/-- Inserting adds the one entry, at a key that was not there. -/
theorem mem_insert {t t' : Avl} {key : RankKey} {payload : String} (ho : t.Ordered)
    (hb : t.Balanced) (h : t.insert key payload = some t') :
    key ∉ t.keys ∧ ∀ e, e ∈ t'.entries ↔ e = (key, payload) ∨ e ∈ t.entries := by
  obtain ⟨ho', -, a, b, ht, ht'⟩ := entries_insert ho hb h
  have hnodup := ho'.nodup
  rw [keys, ht', List.map_append, List.map_cons, List.nodup_middle, List.nodup_cons,
    ← List.map_append, ← ht] at hnodup
  refine ⟨hnodup.1, fun e => ?_⟩
  rw [ht, ht', List.mem_append, List.mem_append, List.mem_cons]
  exact or_left_comm

theorem mem_keys_insert {t t' : Avl} {key : RankKey} {payload : String} (ho : t.Ordered)
    (hb : t.Balanced) (h : t.insert key payload = some t') (k : RankKey) :
    k ∈ t'.keys ↔ k = key ∨ k ∈ t.keys := by
  obtain ⟨-, hentries⟩ := mem_insert ho hb h
  simp only [keys, List.mem_map, hentries]
  constructor
  · rintro ⟨e, rfl | he, rfl⟩
    · exact .inl rfl
    · exact .inr ⟨e, he, rfl⟩
  · rintro (rfl | ⟨e, he, rfl⟩)
    · exact ⟨_, .inl rfl, rfl⟩
    · exact ⟨e, .inr he, rfl⟩

/-- Nothing is inserted at a key that is there. -/
theorem insert_eq_none {t : Avl} {key : RankKey} {payload : String}
    (h : t.insert key payload = none) : ∃ p, (key, p) ∈ t.entries := by
  obtain ⟨fs, l, p, r, -, rfl⟩ := taken_of_insert h
  refine ⟨p, ?_⟩
  rw [entries_plug]
  simp

/-! ## Deleting -/

/-- The subtrees of a removed node taken together, at the end of a way that
begins with `fs`. -/
def splice (l r : Avl) (fs : List Frame) : List Frame × Avl :=
  match l, r with
  | nil, nil => (fs, nil)
  | node .., nil => (fs, l)
  | nil, node .. => (fs, r)
  | node .., node rl rk rp rr =>
      match first rl rk rp rr [] with
      | ([], k, p, rest) => (fs, balance l k p rest)
      | (f :: passed, k, p, rest) => (f :: passed ++ ⟨k, p, .right, l⟩ :: fs, rest)

/-- The tree without a key, if it has the key. -/
def delete (t : Avl) (key : RankKey) : Option Avl :=
  match locate key t [] with
  | (_, nil) => none
  | (fs, node l _ _ r) => some (regrow (splice l r fs).1 (splice l r fs).2)

/-- The node with the key is taken out. -/
theorem delete_eq_some {t t' : Avl} {key : RankKey} (h : t.delete key = some t') :
    ∃ fs l p r, locate key t [] = (fs, node l key p r) ∧ plug fs (node l key p r) = t ∧
      t' = regrow (splice l r fs).1 (splice l r fs).2 := by
  rw [delete] at h
  obtain ⟨fs, hlocate, -⟩ | ⟨fs, l, p, r, hlocate, hplug⟩ := locate_cases key t
  · rw [hlocate] at h
    cases h
  · rw [hlocate] at h
    cases h
    exact ⟨fs, l, p, r, hlocate, hplug, rfl⟩

/-- Nothing is deleted: the place of the key is empty. -/
theorem empty_of_delete {t : Avl} {key : RankKey} (h : t.delete key = none) :
    ∃ fs, locate key t [] = (fs, nil) ∧ plug fs nil = t := by
  rw [delete] at h
  obtain hempty | ⟨fs, l, p, r, hlocate, -⟩ := locate_cases key t
  · exact hempty
  · rw [hlocate] at h
    cases h

/-- Taking the subtrees of a removed node together keeps their entries. -/
theorem entries_splice (l r : Avl) (fs : List Frame) :
    before (splice l r fs).1 ++ (splice l r fs).2.entries ++ after (splice l r fs).1 =
      before fs ++ (l.entries ++ r.entries) ++ after fs := by
  cases l with
  | nil => cases r <;> simp [splice]
  | node ll lk lp lr =>
      cases r with
      | nil => simp [splice]
      | node rl rk rp rr =>
          have hbefore := before_first rl rk rp rr []
          have hfirst := congrArg entries (plug_first rl rk rp rr [])
          rw [entries_plug, hbefore] at hfirst
          simp only [splice]
          generalize first rl rk rp rr [] = place at hbefore hfirst ⊢
          obtain ⟨passed, k, p, rest⟩ := place
          simp only [before, plug, List.nil_append, entries_node, entries_nil] at hbefore hfirst
          cases passed with
          | nil =>
              simp only [after, List.append_nil] at hfirst
              simp [← hfirst]
          | cons f passed =>
              have hb := before_append (f :: passed) (⟨k, p, .right, node ll lk lp lr⟩ :: fs)
              have ha := after_append (f :: passed) (⟨k, p, .right, node ll lk lp lr⟩ :: fs)
              simp only [hb, ha, hbefore, List.append_nil]
              simp [before, after, Frame.before, Frame.after, ← hfirst]

/-- Taking the subtrees of a removed node together changes the height at the end of
the way by at most one. -/
theorem splice_balanced {l r : Avl} {fs : List Frame} {key : RankKey} {payload : String}
    (h : (plug fs (node l key payload r)).Balanced) :
    (splice l r fs).2.Balanced ∧
      ∃ y, (plug (splice l r fs).1 y).Balanced ∧ Near (splice l r fs).2 y := by
  have hnode := balanced_of_plug h
  obtain ⟨h₁, h₂, hl, hr⟩ := hnode
  cases l with
  | nil =>
      cases r with
      | nil => exact ⟨trivial, _, h, by simp [splice, Near]⟩
      | node rl rk rp rr =>
          refine ⟨hr, _, h, ?_⟩
          simp only [splice, Near, height_node, height_nil] at h₁ h₂ ⊢
          omega
  | node ll lk lp lr =>
      cases r with
      | nil =>
          refine ⟨hl, _, h, ?_⟩
          simp only [splice, Near, height_node, height_nil] at h₁ h₂ ⊢
          omega
      | node rl rk rp rr =>
          have hplug := plug_first rl rk rp rr []
          generalize hleft : node ll lk lp lr = left at h h₁ h₂ hl
          simp only [splice, ← hleft]
          simp only [hleft]
          generalize first rl rk rp rr [] = place at hplug ⊢
          obtain ⟨passed, k, p, rest⟩ := place
          dsimp only at hplug
          rw [← show plug passed (node nil k p rest) = node rl rk rp rr from hplug] at h h₁ h₂ hr
          have hnext := balanced_of_plug hr
          cases passed with
          | nil =>
              simp only [plug, height_node, height_nil] at h₁ h₂
              have hrest := hnext.2.2.2
              refine ⟨balanced_balance hl hrest (by omega) (by omega) k p, _, h, ?_⟩
              have hh := height_balance hl hrest (by omega) (by omega) k p
              simp only [plug, Near, height_node, height_nil]
              omega
          | cons f passed =>
              refine ⟨hnext.2.2.2, node nil k p rest, ?_, ?_⟩
              · -- the next node takes the place of the removed one
                have hold := balanced_of_plug h
                rw [plug_append]
                have hnew :
                    (plug fs (node left k p (plug (f :: passed) (node nil k p rest)))).Balanced :=
                  plug_balanced h hold rfl
                exact hnew
              · simp only [Near, height_node, height_nil]
                omega

/-- Deleting takes one entry out, and keeps the tree balanced and in order. -/
theorem entries_delete {t t' : Avl} {key : RankKey} (ho : t.Ordered) (hb : t.Balanced)
    (h : t.delete key = some t') :
    t'.Ordered ∧ t'.Balanced ∧
      ∃ a payload b, t.entries = a ++ (key, payload) :: b ∧ t'.entries = a ++ b := by
  obtain ⟨fs, l, p, r, -, rfl, rfl⟩ := delete_eq_some h
  have hentries : (plug fs (node l key p r)).entries =
      (before fs ++ l.entries) ++ (key, p) :: (r.entries ++ after fs) := by
    rw [entries_plug]
    simp
  have hentries' : (regrow (splice l r fs).1 (splice l r fs).2).entries =
      (before fs ++ l.entries) ++ (r.entries ++ after fs) := by
    rw [entries_regrow, entries_splice]
    simp
  obtain ⟨hx, y, hy, hnear⟩ := splice_balanced hb
  refine ⟨?_, (regrow_balanced hy hx hnear).1, _, p, _, hentries, hentries'⟩
  rw [Ordered, keys, hentries, List.map_append, List.map_cons] at ho
  rw [Ordered, keys, hentries', List.map_append]
  exact ho.sublist ((List.sublist_cons_self _ _).append_left _)

/-- Deleting takes out the entry with the key, and no other. -/
theorem mem_delete {t t' : Avl} {key : RankKey} (ho : t.Ordered) (hb : t.Balanced)
    (h : t.delete key = some t') :
    key ∈ t.keys ∧ ∀ e, e ∈ t'.entries ↔ e ∈ t.entries ∧ e.1 ≠ key := by
  obtain ⟨-, -, a, p, b, ht, ht'⟩ := entries_delete ho hb h
  have hnodup := ho.nodup
  rw [keys, ht, List.map_append, List.map_cons, List.nodup_middle, List.nodup_cons,
    ← List.map_append, ← ht'] at hnodup
  refine ⟨by rw [keys, ht]; simp, fun e => ⟨fun he => ⟨?_, ?_⟩, ?_⟩⟩
  · rw [ht'] at he
    rw [ht]
    exact (List.Sublist.append_left (List.sublist_cons_self _ _) a).subset he
  · intro hkey
    have hmem : e.1 ∈ t'.entries.map Prod.fst := List.mem_map_of_mem he
    rw [hkey] at hmem
    exact hnodup.1 hmem
  · rintro ⟨he, hne⟩
    rw [ht, List.mem_append, List.mem_cons] at he
    rw [ht', List.mem_append]
    rcases he with he | rfl | he
    · exact .inl he
    · exact absurd rfl hne
    · exact .inr he

theorem mem_keys_delete {t t' : Avl} {key : RankKey} (ho : t.Ordered) (hb : t.Balanced)
    (h : t.delete key = some t') (k : RankKey) : k ∈ t'.keys ↔ k ∈ t.keys ∧ k ≠ key := by
  obtain ⟨-, hentries⟩ := mem_delete ho hb h
  simp only [keys, List.mem_map, hentries]
  constructor
  · rintro ⟨e, ⟨he, hne⟩, rfl⟩
    exact ⟨⟨e, he, rfl⟩, hne⟩
  · rintro ⟨⟨e, he, rfl⟩, hne⟩
    exact ⟨e, ⟨he, hne⟩, rfl⟩

/-- Nothing is deleted at a key that is not there. -/
theorem delete_eq_none {t : Avl} {key : RankKey} (ho : t.Ordered) (h : t.delete key = none)
    (p : String) : (key, p) ∉ t.entries := by
  have hbetween := locate_between key [] ho (by simp [before]) (by simp [after])
  obtain ⟨fs, hlocate, rfl⟩ := empty_of_delete h
  rw [hlocate] at hbetween
  rw [entries_plug]
  intro hmem
  simp only [entries_nil, List.append_nil, List.mem_append] at hmem
  rcases hmem with hmem | hmem
  · have hlt := hbetween.1 (key, p) hmem
    exact RankKey.lt_irrefl key hlt
  · have hlt := hbetween.2 (key, p) hmem
    exact RankKey.lt_irrefl key hlt

end Avl

end Leaderboard
