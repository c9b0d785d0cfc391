import Leaderboard.Proofs.Avl.Path
import Leaderboard.Proofs.Record.Layout
import Leaderboard.Proofs.Store.Contents

/-!
# Trees that records spell

A `Memory` tells the node at each key.  `Avl.Stands` says of a tree value that
some memory spells it: at every key of the tree is a node with the payload, with
pointers to the two subtrees, and with the height of the tree there.  A tree
stands on the nodes at its own keys only (`Avl.Stands.congr`), which is what lets
one part of a tree change beside another.

`Tree.stored` is the memory that the contents of a store spell.  `Tree.Holds` says
that the records the root pointer leads to spell a balanced search tree, and
`Tree.Valid` that the root pointer can be read, too.  A record that spells a pointer
(`Contents.Spells`) is read back only if the key has its separator.
-/

namespace Leaderboard

/-- The node at each key, where there is one. -/
abbrev Memory := RankKey → Option Node

namespace Avl

/-! ## Standing -/

/-- A memory spells a tree. -/
def Stands (m : Memory) : Avl → Prop
  | nil => True
  | node l k p r =>
      (∃ h : UInt32, m k = some ⟨p, l.root, r.root, h⟩ ∧ h.toNat = (node l k p r).height) ∧
        l.Stands m ∧ r.Stands m

/-- A memory spells a tree, up to the heights of the nodes. -/
def Links (m : Memory) : Avl → Prop
  | nil => True
  | node l k p r => (∃ h : UInt32, m k = some ⟨p, l.root, r.root, h⟩) ∧ l.Links m ∧ r.Links m

/-- A memory spells a node and its subtrees, up to the height of the node. -/
def Leans (m : Memory) (s : Side) (near : Avl) (k : RankKey) (p : String) (far : Avl) : Prop :=
  (∃ n, m k = some n ∧ n.payload = p ∧ n.child s = near.root ∧ n.child s.other = far.root) ∧
    near.Stands m ∧ far.Stands m

/-- A memory spells a node of a way down, up to the child on the way and the
height. -/
def Frame.Leans (m : Memory) (f : Frame) : Prop :=
  (∃ n, m f.key = some n ∧ n.payload = f.payload ∧ n.child f.side.other = f.sibling.root) ∧
    f.sibling.Stands m

theorem Stands.links {m : Memory} {x : Avl} (h : x.Stands m) : x.Links m := by
  induction x with
  | nil => trivial
  | node l k p r ihl ihr =>
      obtain ⟨⟨height, hn, -⟩, hl, hr⟩ := h
      exact ⟨⟨height, hn⟩, ihl hl, ihr hr⟩

/-- A node is at every key of a tree that a memory spells. -/
theorem Links.isSome {m : Memory} {x : Avl} (h : x.Links m) {k : RankKey} (hk : k ∈ x.keys) :
    ∃ n, m k = some n := by
  induction x with
  | nil => cases hk
  | node l j p r ihl ihr =>
      obtain ⟨⟨height, hn⟩, hl, hr⟩ := h
      rw [keys_node, List.mem_append, List.mem_cons] at hk
      rcases hk with hk | rfl | hk
      · exact ihl hl hk
      · exact ⟨_, hn⟩
      · exact ihr hr hk

/-- The pointers in a tree that a memory spells lead to nodes of the tree. -/
theorem Links.child_mem_keys {m : Memory} {x : Avl} (h : x.Links m) {k j : RankKey} {n : Node}
    {side : Side} (hk : k ∈ x.keys) (hn : m k = some n) (hj : n.child side = some j) :
    j ∈ x.keys := by
  induction x with
  | nil => cases hk
  | node l i p r ihl ihr =>
      obtain ⟨⟨height, hi⟩, hl, hr⟩ := h
      rw [keys_node, List.mem_append, List.mem_cons] at hk ⊢
      rcases hk with hk | rfl | hk
      · exact .inl (ihl hl hk)
      · rw [hi] at hn
        cases hn
        cases side with
        | left => exact .inl (root_mem_keys hj)
        | right => exact .inr (.inr (root_mem_keys hj))
      · exact .inr (.inr (ihr hr hk))

theorem stands_fork {m : Memory} {s : Side} {x : Avl} {k : RankKey} {p : String} {y : Avl} :
    (fork s x k p y).Stands m ↔
      (∃ n, m k = some n ∧ n.payload = p ∧ n.child s = x.root ∧ n.child s.other = y.root ∧
        n.height.toNat = 1 + max x.height y.height) ∧ x.Stands m ∧ y.Stands m := by
  cases s with
  | left =>
      constructor
      · rintro ⟨⟨h, hm, hh⟩, hx, hy⟩
        exact ⟨⟨_, hm, rfl, rfl, rfl, hh⟩, hx, hy⟩
      · rintro ⟨⟨⟨p', l', r', h⟩, hm, rfl, hl, hr, hh⟩, hx, hy⟩
        cases hl
        cases hr
        exact ⟨⟨h, hm, hh⟩, hx, hy⟩
  | right =>
      constructor
      · rintro ⟨⟨h, hm, hh⟩, hy, hx⟩
        rw [height_node, Nat.max_comm] at hh
        exact ⟨⟨_, hm, rfl, rfl, rfl, hh⟩, hx, hy⟩
      · rintro ⟨⟨⟨p', l', r', h⟩, hm, rfl, hl, hr, hh⟩, hx, hy⟩
        cases hl
        cases hr
        rw [Nat.max_comm] at hh
        exact ⟨⟨h, hm, hh⟩, hy, hx⟩

theorem Stands.leans {m : Memory} {s : Side} {x : Avl} {k : RankKey} {p : String} {y : Avl}
    (h : (fork s x k p y).Stands m) : Leans m s x k p y := by
  obtain ⟨⟨n, hn, hp, hx, hy, -⟩, hsx, hsy⟩ := stands_fork.mp h
  exact ⟨⟨n, hn, hp, hx, hy⟩, hsx, hsy⟩

theorem Leans.other {m : Memory} {s : Side} {x : Avl} {k : RankKey} {p : String} {y : Avl}
    (h : Leans m s x k p y) : Leans m s.other y k p x := by
  obtain ⟨⟨n, hn, hp, hx, hy⟩, hsx, hsy⟩ := h
  exact ⟨⟨n, hn, hp, hy, by rw [Side.other_other]; exact hx⟩, hsy, hsx⟩

theorem Leans.node {m : Memory} {s : Side} {near : Avl} {k : RankKey} {p : String} {far : Avl}
    (h : Leans m s near k p far) :
    ∃ l r, fork s near k p far = Avl.node l k p r ∧ Leans m .left l k p r := by
  cases s with
  | left => exact ⟨near, far, rfl, h⟩
  | right => exact ⟨far, near, rfl, h.other⟩

theorem Leans.frame {m : Memory} {s : Side} {near : Avl} {k : RankKey} {p : String} {far : Avl}
    (h : Leans m s near k p far) : (Frame.mk k p s far).Leans m := by
  obtain ⟨⟨n, hn, hp, -, hc⟩, -, hfar⟩ := h
  exact ⟨⟨n, hn, hp, hc⟩, hfar⟩

/-- A tree stands on the nodes at its own keys. -/
theorem Stands.congr {m m' : Memory} {t : Avl} (h : t.Stands m)
    (hm : ∀ k ∈ t.keys, m' k = m k) : t.Stands m' := by
  induction t with
  | nil => trivial
  | node l k p r ihl ihr =>
      obtain ⟨⟨height, hn, hh⟩, hl, hr⟩ := h
      rw [keys_node] at hm
      refine ⟨⟨height, ?_, hh⟩, ihl hl ?_, ihr hr ?_⟩
      · rw [hm k (by simp)]
        exact hn
      · intro j hj
        exact hm j (List.mem_append_left _ hj)
      · intro j hj
        exact hm j (List.mem_append_right _ (.tail _ hj))

theorem Frame.Leans.congr {m m' : Memory} {f : Frame} (h : f.Leans m)
    (hk : m' f.key = m f.key) (hm : ∀ k ∈ f.sibling.keys, m' k = m k) : f.Leans m' := by
  obtain ⟨⟨n, hn, hp, hc⟩, hs⟩ := h
  exact ⟨⟨n, hk.trans hn, hp, hc⟩, hs.congr hm⟩

/-- A way down stays where the memory changes at none of its keys. -/
theorem frames_congr {m m' : Memory} {keys : List RankKey} {fs : List Frame}
    (hm : ∀ k ∉ keys, m' k = m k) (hfs : ∀ f ∈ fs, f.Leans m)
    (haway : ∀ f ∈ fs, f.key ∉ keys ∧ ∀ k ∈ f.sibling.keys, k ∉ keys) :
    ∀ f ∈ fs, f.Leans m' := by
  intro f hf
  obtain ⟨hfk, hsib⟩ := haway f hf
  exact (hfs f hf).congr (hm _ hfk) fun k hk => hm k (hsib k hk)

/-- A tree stands if its way down and the tree at the end do. -/
theorem leans_of_plug {m : Memory} {fs : List Frame} {x : Avl} (h : (plug fs x).Stands m) :
    (∀ f ∈ fs, f.Leans m) ∧ x.Stands m := by
  induction fs generalizing x with
  | nil => exact ⟨by simp, h⟩
  | cons f fs ih =>
      obtain ⟨hfs, hfill⟩ := ih h
      have hlean := hfill.leans
      refine ⟨?_, hlean.2.1⟩
      intro g hg
      rcases List.mem_cons.mp hg with rfl | hg
      · exact hlean.frame
      · exact hfs g hg

theorem keys_of_mem {fs : List Frame} {f : Frame} (hf : f ∈ fs) {k : RankKey}
    (hk : k = f.key ∨ k ∈ f.sibling.keys) :
    k ∈ (before fs).map Prod.fst ∨ k ∈ (after fs).map Prod.fst := by
  induction fs with
  | nil => cases hf
  | cons g fs ih =>
      simp only [before, after, List.map_append, List.mem_append]
      rcases List.mem_cons.mp hf with rfl | hf
      · obtain ⟨key, p, s, sib⟩ := f
        cases s with
        | left =>
            refine .inr (.inl ?_)
            rw [Frame.after, List.map_cons, List.mem_cons]
            exact hk
        | right =>
            refine .inl (.inr ?_)
            rw [Frame.before, List.map_append, List.mem_append, List.map_cons, List.mem_cons]
            rcases hk with rfl | hk
            · exact .inr (.inl rfl)
            · exact .inl hk
      · rcases ih hf with h | h
        · exact .inl (.inl h)
        · exact .inr (.inr h)

/-- If no key occurs twice, what stands at the end of a way down has none of the
keys of the way. -/
theorem disjoint_of_nodup {fs : List Frame} {x : Avl} (h : (plug fs x).keys.Nodup) :
    x.keys.Nodup ∧ ∀ f ∈ fs, f.key ∉ x.keys ∧ ∀ k ∈ f.sibling.keys, k ∉ x.keys := by
  rw [keys_plug, List.append_assoc, List.nodup_append, List.nodup_append] at h
  obtain ⟨-, ⟨hx, -, hxa⟩, hbx⟩ := h
  have haway : ∀ f ∈ fs, ∀ k, k = f.key ∨ k ∈ f.sibling.keys → k ∉ x.keys := by
    intro f hf k hk hkx
    rcases keys_of_mem hf hk with hb | ha
    · exact hbx k hb k (List.mem_append_left _ hkx) rfl
    · exact hxa k hkx k ha rfl
  exact ⟨hx, fun f hf => ⟨haway f hf _ (.inl rfl), fun k hk => haway f hf k (.inr hk)⟩⟩

/-- A key that a tree does not have is neither on a way down the tree nor at its end. -/
theorem notMem_of_plug {fs : List Frame} {x : Avl} {k : RankKey} (h : k ∉ (plug fs x).keys) :
    k ∉ x.keys ∧ ∀ f ∈ fs, f.key ∉ [k] ∧ ∀ j ∈ f.sibling.keys, j ∉ [k] := by
  rw [keys_plug, List.mem_append, List.mem_append, not_or, not_or] at h
  obtain ⟨⟨hb, hx⟩, ha⟩ := h
  have haway : ∀ f ∈ fs, ∀ j, j = f.key ∨ j ∈ f.sibling.keys → j ∉ [k] := by
    intro f hf j hj hjk
    rw [List.mem_singleton] at hjk
    subst hjk
    rcases keys_of_mem hf hj with h | h
    · exact hb h
    · exact ha h
  exact ⟨hx, fun f hf => ⟨haway f hf _ (.inl rfl), fun j hj => haway f hf j (.inr hj)⟩⟩

end Avl

/-! ## Pointers in contents -/

/-- A record spells a pointer. -/
def Contents.Spells (c : Contents) (key : Bytes) : NodeRef → Prop
  | none => c key = none ∨ c key = some []
  | some k => c key = some k.encode

/-- Reads the pointer that a record spells. -/
def Access.getRef (key : Bytes) : Access NodeRef := do
  match ← Access.get key with
  | none | some [] => pure none
  | some value => some <$> Tree.decoded key (RankKey.decode value)

theorem RankKey.encode_eq_cons (k : RankKey) : ∃ b bs, k.encode = b :: bs := by
  cases hk : k.encode with
  | nil =>
      have hlen := RankKey.length_encode k
      rw [hk] at hlen
      cases hlen
  | cons b bs => exact ⟨b, bs, rfl⟩

namespace Contents

variable {c : Contents} {key : Bytes}

theorem spells_congr {c' : Contents} (h : c' key = c key) {ref : NodeRef} :
    c'.Spells key ref ↔ c.Spells key ref := by
  cases ref with
  | none => rw [Spells, Spells, h]
  | some k => rw [Spells, Spells, h]

theorem spells_put (c : Contents) (key : Bytes) (ref : NodeRef) :
    (c.put key ((ref.map RankKey.encode).getD [])).Spells key ref := by
  cases ref with
  | none => exact .inr (put_self ..)
  | some k => exact put_self ..

/-- A record spells one pointer at most. -/
theorem Spells.unique {a b : NodeRef} (ha : c.Spells key a) (hb : c.Spells key b) : a = b := by
  have haway : ∀ k : RankKey, c.Spells key (some k) → ¬ c.Spells key none := by
    intro k hk hnone
    obtain ⟨b, bs, hcons⟩ := k.encode_eq_cons
    rw [Spells, hcons] at hk
    rcases hnone with h | h
    · rw [h] at hk
      cases hk
    · rw [h] at hk
      cases hk
  cases a with
  | none =>
      cases b with
      | none => rfl
      | some k => exact absurd ha (haway k hb)
  | some j =>
      cases b with
      | none => exact absurd hb (haway j ha)
      | some k =>
          rw [Spells] at ha hb
          rw [ha] at hb
          exact congrArg some (RankKey.encode_inj (Option.some.inj hb))

/-- Reading a pointer that leads somewhere. -/
theorem Spells.getRef_eval_some {k : RankKey} (h : c.Spells key (some k)) :
    (Access.getRef key).eval c =
      (Except.map some ((RankKey.decode k.encode).mapError
        fun cause => .malformedRecord key (.undecodable cause)), []) := by
  obtain ⟨b, bs, hk⟩ := k.encode_eq_cons
  rw [Access.getRef, Access.eval_bind_read (Access.eval_get _ c),
    show c key = some k.encode from h, hk]
  dsimp only
  cases RankKey.decode (b :: bs) <;> rfl

/-- A pointer to a key with its separator is read as it was written. -/
theorem Spells.getRef_eval {ref : NodeRef} (h : c.Spells key ref) (hmade : ∀ k ∈ ref, k.Made) :
    (Access.getRef key).eval c = (.ok ref, []) := by
  cases ref with
  | none =>
      rw [Access.getRef, Access.eval_bind_read (Access.eval_get _ c)]
      rcases h with h | h
      · rw [h]
        rfl
      · rw [h]
        rfl
  | some k =>
      rw [h.getRef_eval_some, RankKey.decode_encode (hmade k rfl)]
      rfl

theorem Spells.getRef_eval_of_not_made {k : RankKey} (h : c.Spells key (some k))
    (hmade : ¬ k.Made) :
    (Access.getRef key).eval c =
      (.error (.malformedRecord key (.undecodable .missingSeparator)), []) := by
  rw [h.getRef_eval_some, RankKey.decode_encode_of_not_made hmade]
  rfl

end Contents

/-! ## Trees in contents -/

/-- The failure of a read of a record that is missing or malformed. -/
inductive Failure.Unreadable : Failure → Prop where
  /-- The record is missing or empty. -/
  | dangling (key : Bytes) : Unreadable (.danglingReference key)
  /-- The record cannot be read. -/
  | malformed (key : Bytes) (fault : RecordFault) : Unreadable (.malformedRecord key fault)

namespace Tree

variable (t : Tree)

/-- The nodes that the contents of a store spell. -/
def stored (c : Contents) : Memory := fun k =>
  match c (t.name.nodeKey k) with
  | none | some [] => none
  | some record => (Node.decode record).toOption

/-- The record of the root pointer spells a pointer. -/
def PointsTo (c : Contents) (ref : NodeRef) : Prop := c.Spells t.name.rootKey ref

/-- The records that the root pointer leads to spell a balanced search tree. -/
structure Holds (c : Contents) (x : Avl) : Prop where
  /-- The root pointer leads to the tree. -/
  points : t.PointsTo c x.root
  /-- The records spell the tree, each at its height. -/
  stands : x.Stands (t.stored c)
  /-- The keys increase from left to right. -/
  ordered : x.Ordered
  /-- The heights of siblings differ by at most one. -/
  balanced : x.Balanced

/-- The store holds a balanced search tree, and its root pointer can be read. -/
def Valid (c : Contents) (x : Avl) : Prop := t.Holds c x ∧ ∀ k ∈ x.root, k.Made

variable {t}

/-- Contents without a pointer to the root hold the tree without nodes. -/
theorem holds_nil {c : Contents} (h : t.PointsTo c none) : t.Holds c .nil :=
  ⟨h, trivial, List.Pairwise.nil, trivial⟩

theorem valid_nil {c : Contents} (h : t.PointsTo c none) : t.Valid c .nil := ⟨holds_nil h, nofun⟩

theorem getElem?_insert (nodes : Std.TreeMap RankKey Node) (k : RankKey) (n : Node)
    (j : RankKey) : (nodes.insert k n)[j]? = if k = j then some n else nodes[j]? := by
  simp only [Std.TreeMap.getElem?_insert, Std.LawfulEqOrd.compare_eq_iff_eq]

theorem stored_eq_some {c : Contents} {k : RankKey} {n : Node} :
    t.stored c k = some n ↔
      ∃ record, c (t.name.nodeKey k) = some record ∧ record ≠ [] ∧ Node.decode record = .ok n := by
  rw [stored]
  constructor
  · intro h
    split at h
    · cases h
    · cases h
    · rename_i record hne hrecord
      refine ⟨record, hrecord, hne, ?_⟩
      cases hd : Node.decode record with
      | error _ =>
          rw [hd] at h
          cases h
      | ok n' =>
          rw [hd] at h
          cases h
          rfl
  · rintro ⟨record, hrecord, hne, hd⟩
    rw [hrecord]
    cases record with
    | nil => exact absurd rfl hne
    | cons b bs =>
        dsimp only
        rw [hd]
        rfl

theorem fits_of_stored {c : Contents} {k : RankKey} {n : Node} (h : t.stored c k = some n) :
    Codec.Fits n.payload := by
  obtain ⟨record, -, -, hd⟩ := stored_eq_some.mp h
  exact (Node.decode_eq_ok hd).1

theorem load_eval {c : Contents} {k : RankKey} {n : Node} (h : t.stored c k = some n) :
    (t.load k).eval c = (.ok n, []) := by
  obtain ⟨record, hrecord, hne, hd⟩ := stored_eq_some.mp h
  rw [load, Access.eval_bind_read (Access.eval_get _ c), hrecord]
  cases record with
  | nil => exact absurd rfl hne
  | cons b bs =>
      dsimp only
      rw [hd]
      rfl

/-- A node is read just if the contents spell one. -/
theorem load_cases (t : Tree) (c : Contents) (k : RankKey) :
    (∃ n, t.stored c k = some n ∧ (t.load k).eval c = (.ok n, [])) ∨
      t.stored c k = none ∧
        ∃ failure, failure.Unreadable ∧ (t.load k).eval c = (.error failure, []) := by
  cases hn : t.stored c k with
  | some n => exact .inl ⟨n, rfl, load_eval hn⟩
  | none =>
      refine .inr ⟨rfl, ?_⟩
      rw [load, Access.eval_bind_read (Access.eval_get _ c)]
      cases hrecord : c (t.name.nodeKey k) with
      | none => exact ⟨_, .dangling _, rfl⟩
      | some record =>
          cases record with
          | nil => exact ⟨_, .dangling _, rfl⟩
          | cons b bs =>
              cases hd : Node.decode (b :: bs) with
              | ok n =>
                  have hsome := stored_eq_some.mpr ⟨_, hrecord, List.cons_ne_nil b bs, hd⟩
                  rw [hn] at hsome
                  cases hsome
              | error fault =>
                  dsimp only
                  rw [hd]
                  exact ⟨_, .malformed _ _, rfl⟩

/-- The root pointer is read just if its record spells one with its separator. -/
theorem root_cases (t : Tree) (c : Contents) :
    (∃ ref, t.PointsTo c ref ∧ (∀ k ∈ ref, k.Made) ∧ t.root.eval c = (.ok ref, [])) ∨
      ∃ failure, failure.Unreadable ∧ t.root.eval c = (.error failure, []) := by
  rw [root, Access.eval_bind_read (Access.eval_get _ c)]
  cases h : c t.name.rootKey with
  | none => exact .inl ⟨none, .inl h, by simp, rfl⟩
  | some record =>
      cases record with
      | nil => exact .inl ⟨none, .inr h, by simp, rfl⟩
      | cons b bs =>
          cases hd : RankKey.decode (b :: bs) with
          | ok k =>
              obtain ⟨hmade, hbytes⟩ := RankKey.decode_eq_ok hd
              refine .inl ⟨some k, ?_, ?_, ?_⟩
              · rw [PointsTo, Contents.Spells, h, hbytes]
              · rintro _ ⟨⟩
                exact hmade
              · dsimp only
                rw [hd]
                rfl
          | error fault =>
              dsimp only
              rw [hd]
              exact .inr ⟨_, .malformed _ _, rfl⟩

theorem root_eval {c : Contents} {ref : NodeRef} (h : t.PointsTo c ref)
    (hmade : ∀ k ∈ ref, k.Made) : t.root.eval c = (.ok ref, []) :=
  Contents.Spells.getRef_eval h hmade

/-- A root pointer without its separator cannot be read. -/
theorem root_eval_of_not_made {c : Contents} {k : RankKey} (h : t.PointsTo c (some k))
    (hmade : ¬ k.Made) :
    t.root.eval c =
      (.error (.malformedRecord t.name.rootKey (.undecodable .missingSeparator)), []) :=
  Contents.Spells.getRef_eval_of_not_made h hmade

/-- A tree that the records spell is valid, unless the root pointer cannot be read. -/
theorem Holds.valid_or {c : Contents} {x : Avl} (h : t.Holds c x) :
    t.Valid c x ∨ ∃ failure, t.root.eval c = (.error failure, []) := by
  by_cases hmade : ∀ k ∈ x.root, k.Made
  · exact .inl ⟨h, hmade⟩
  · push Not at hmade
    obtain ⟨k, hk, hmade⟩ := hmade
    have hpoints := h.points
    rw [hk] at hpoints
    exact .inr ⟨_, root_eval_of_not_made hpoints hmade⟩

end Tree

end Leaderboard
