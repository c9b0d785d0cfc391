import Leaderboard.Proofs.Tree.Session

/-!
# Writing a session back

`Tree.flush_eval` lists the puts of a flush: the marked nodes, the pointer to the
root if it changed, and the tombstones.  Such puts are all to the tree's own
records (`Tree.Own`), and the records then spell what the session saw, but for
the removed nodes (`Tree.stored_flush`).
-/

namespace Leaderboard

namespace Session

variable (t : Tree) (s : Session)

/-- The puts of the marked nodes. -/
def nodePuts (keys : List RankKey) : List (Bytes × Bytes) :=
  keys.filterMap fun k => s.nodes[k]?.map fun n => (t.name.nodeKey k, n.encode)

/-- The put of the pointer to the root, unless that stays. -/
def rootPuts (oldRoot newRoot : NodeRef) : List (Bytes × Bytes) :=
  if oldRoot ≠ newRoot then [(t.name.rootKey, (newRoot.map RankKey.encode).getD [])] else []

/-- The puts of the tombstones, if the tree keeps them. -/
def tombstonePuts : List (Bytes × Bytes) :=
  if t.tombstones then s.removed.map fun k => (t.name.nodeKey k, []) else []

/-- The puts of a flush. -/
def flushPuts (oldRoot newRoot : NodeRef) : List (Bytes × Bytes) :=
  nodePuts t s s.dirty ++ rootPuts t oldRoot newRoot ++ tombstonePuts t s

end Session

open Session (nodePuts rootPuts tombstonePuts flushPuts)

namespace Tree

variable {t : Tree} {c : Contents} {s : Session}

/-- Some puts are to the records of the tree. -/
def Own (t : Tree) (puts : List (Bytes × Bytes)) : Prop :=
  ∀ p ∈ puts, p.1 = t.name.rootKey ∨ ∃ k, p.1 = t.name.nodeKey k

/-- Such puts leave the records of entities alone. -/
theorem Own.write_entityKey {puts : List (Bytes × Bytes)} (h : t.Own puts) (c : Contents)
    (e : String) : c.write puts (t.name.entityKey e) = c (t.name.entityKey e) := by
  refine Contents.write_of_forall_ne (fun p hp heq => ?_) c
  rcases h p hp with hroot | ⟨k, hnode⟩
  · exact t.name.entityKey_ne_rootKey e (heq.symm.trans hroot)
  · exact t.name.entityKey_ne_nodeKey e k (heq.symm.trans hnode)

theorem writeNodes_eval (s : Session) (keys : List RankKey) (c : Contents) :
    (t.writeNodes s.nodes keys).eval c = (.ok (), nodePuts t s keys) := by
  induction keys generalizing c with
  | nil => rfl
  | cons k keys ih =>
      rw [writeNodes, nodePuts, List.filterMap_cons]
      cases hn : s.nodes[k]? with
      | none =>
          exact ih c
      | some n =>
          rw [Access.eval_bind (Access.eval_put _ _ c), ih]
          rfl

theorem writeTombstones_eval (keys : List RankKey) (c : Contents) :
    (t.writeTombstones keys).eval c = (.ok (), keys.map fun k => (t.name.nodeKey k, [])) := by
  induction keys generalizing c with
  | nil => rfl
  | cons k keys ih =>
      rw [writeTombstones, Access.eval_bind (Access.eval_put _ _ c), ih]
      rfl

/-- The puts of a flush. -/
theorem flush_eval (s : Session) (oldRoot newRoot : NodeRef) (c : Contents) :
    (t.flush s oldRoot newRoot).eval c = (.ok (), flushPuts t s oldRoot newRoot) := by
  have htombs : ∀ c, (if t.tombstones then t.writeTombstones s.removed else pure ()).eval c =
      (.ok (), tombstonePuts t s) := by
    intro c
    rw [tombstonePuts]
    cases t.tombstones with
    | true => exact writeTombstones_eval _ c
    | false => rfl
  rw [flush, Access.eval_bind (writeNodes_eval ..), flushPuts, rootPuts]
  by_cases hroot : oldRoot = newRoot
  · rw [if_neg (not_not_intro hroot), if_neg (not_not_intro hroot), htombs, List.append_nil]
  · rw [if_pos hroot, if_pos hroot, writeRoot, Access.eval_bind (Access.eval_put ..), htombs,
      List.append_assoc]

theorem mem_nodePuts {keys : List RankKey} {p : Bytes × Bytes} (hp : p ∈ nodePuts t s keys) :
    ∃ k ∈ keys, ∃ n, s.nodes[k]? = some n ∧ p = (t.name.nodeKey k, n.encode) := by
  obtain ⟨k, hk, hp⟩ := List.mem_filterMap.mp hp
  obtain ⟨n, hn, rfl⟩ := Option.map_eq_some_iff.mp hp
  exact ⟨k, hk, n, hn, rfl⟩

theorem nodePuts_cons {k : RankKey} {n : Node} (hn : s.nodes[k]? = some n) (keys : List RankKey) :
    nodePuts t s (k :: keys) = (t.name.nodeKey k, n.encode) :: nodePuts t s keys := by
  rw [nodePuts, List.filterMap_cons, hn]
  rfl

theorem take_nodePuts {keys : List RankKey} (h : ∀ k ∈ keys, ∃ n, s.nodes[k]? = some n)
    (count : Nat) : (nodePuts t s keys).take count = nodePuts t s (keys.take count) := by
  induction keys generalizing count with
  | nil => rw [List.take_nil, nodePuts, List.filterMap_nil, List.take_nil]
  | cons k keys ih =>
      obtain ⟨n, hn⟩ := h k (.head _)
      cases count with
      | zero => rfl
      | succ count =>
          rw [nodePuts_cons hn, List.take_succ_cons, List.take_succ_cons, nodePuts_cons hn,
            ih fun k hk => h k (.tail _ hk)]

theorem length_nodePuts {keys : List RankKey} (h : ∀ k ∈ keys, ∃ n, s.nodes[k]? = some n) :
    (nodePuts t s keys).length = keys.length := by
  induction keys with
  | nil => rfl
  | cons k keys ih =>
      obtain ⟨n, hn⟩ := h k (.head _)
      rw [nodePuts_cons hn, List.length_cons, List.length_cons, ih fun k hk => h k (.tail _ hk)]

theorem getElem?_nodePuts {keys : List RankKey} (h : ∀ k ∈ keys, ∃ n, s.nodes[k]? = some n)
    {count : Nat} {k : RankKey} (hk : keys[count]? = some k) :
    ∃ n, (nodePuts t s keys)[count]? = some (t.name.nodeKey k, Node.encode n) := by
  induction keys generalizing count with
  | nil => cases hk
  | cons j keys ih =>
      obtain ⟨n, hn⟩ := h j (.head _)
      rw [nodePuts_cons hn]
      cases count with
      | zero =>
          cases hk
          exact ⟨n, rfl⟩
      | succ count => exact ih (fun k hk => h k (.tail _ hk)) hk

theorem mem_rootPuts {oldRoot newRoot : NodeRef} {p : Bytes × Bytes}
    (hp : p ∈ rootPuts t oldRoot newRoot) :
    p = (t.name.rootKey, (newRoot.map RankKey.encode).getD []) := by
  rw [rootPuts] at hp
  split at hp
  · exact List.mem_singleton.mp hp
  · cases hp

theorem mem_tombstonePuts {p : Bytes × Bytes} (hp : p ∈ tombstonePuts t s) :
    ∃ k ∈ s.removed, p = (t.name.nodeKey k, []) := by
  rw [tombstonePuts] at hp
  split at hp
  · obtain ⟨k, hk, rfl⟩ := List.mem_map.mp hp
    exact ⟨k, hk, rfl⟩
  · cases hp

/-- A put of a flush is that of a marked node, of the pointer to the root, or a tombstone. -/
theorem mem_flushPuts {oldRoot newRoot : NodeRef} {p : Bytes × Bytes}
    (hp : p ∈ flushPuts t s oldRoot newRoot) :
    (∃ k ∈ s.dirty, ∃ n, s.nodes[k]? = some n ∧ p = (t.name.nodeKey k, n.encode)) ∨
      p = (t.name.rootKey, (newRoot.map RankKey.encode).getD []) ∨
        ∃ k ∈ s.removed, p = (t.name.nodeKey k, []) := by
  rw [flushPuts, List.mem_append, List.mem_append] at hp
  rcases hp with (hp | hp) | hp
  · exact .inl (mem_nodePuts hp)
  · exact .inr (.inl (mem_rootPuts hp))
  · exact .inr (.inr (mem_tombstonePuts hp))

theorem own_flush (s : Session) (oldRoot newRoot : NodeRef) :
    t.Own (flushPuts t s oldRoot newRoot) := by
  intro p hp
  rcases mem_flushPuts hp with ⟨k, -, n, -, rfl⟩ | rfl | ⟨k, -, rfl⟩
  · exact .inr ⟨k, rfl⟩
  · exact .inl rfl
  · exact .inr ⟨k, rfl⟩

/-! ## What the records spell then -/

theorem stored_congr {c c' : Contents} {k : RankKey}
    (h : c' (t.name.nodeKey k) = c (t.name.nodeKey k)) : t.stored c' k = t.stored c k := by
  rw [stored, stored, h]

theorem stored_put (c : Contents) (j : RankKey) {n : Node} (hn : Codec.Fits n.payload)
    (k : RankKey) :
    t.stored (c.put (t.name.nodeKey j) n.encode) k = if k = j then some n else t.stored c k := by
  split
  next h =>
    subst h
    exact stored_eq_some.mpr ⟨_, Contents.put_self .., n.encode_ne_nil, Node.decode_encode hn⟩
  next h =>
    exact stored_congr (Contents.put_of_ne _ _ (mt t.name.nodeKey_inj.mp h))

/-- Once some nodes are written, the records spell at their keys what the session sees. -/
theorem stored_nodePuts
    (hs : ∀ {k : RankKey} {n : Node}, s.nodes[k]? = some n → Codec.Fits n.payload)
    (keys : List RankKey) (c : Contents) (k : RankKey) :
    t.stored (c.write (nodePuts t s keys)) k =
      if k ∈ keys then s.sees t c k else t.stored c k := by
  induction keys generalizing c with
  | nil => rfl
  | cons j keys ih =>
      have hcons : nodePuts t s (j :: keys) =
          ((s.nodes[j]?.map fun n => (t.name.nodeKey j, n.encode)).toList ++
            nodePuts t s keys) := by
        rw [nodePuts, List.filterMap_cons]
        cases s.nodes[j]? <;> rfl
      rw [hcons]
      cases hn : s.nodes[j]? with
      | none =>
          rw [Option.map_none, Option.toList_none, List.nil_append, ih]
          by_cases hk : k ∈ keys
          · rw [if_pos hk, if_pos (.tail _ hk)]
          · by_cases hkj : k = j
            · subst hkj
              rw [if_neg hk, if_pos (.head _), Session.sees, hn, Option.none_or]
            · rw [if_neg hk, if_neg (by simp [hk, hkj])]
      | some n =>
          rw [Option.map_some, Option.toList_some, List.singleton_append, Contents.write_cons, ih,
            Session.sees, Session.sees, stored_put c j (hs hn)]
          by_cases hkj : k = j
          · subst hkj
            simp [hn]
          · simp [hkj]

theorem stored_rootPuts (oldRoot newRoot : NodeRef) (c : Contents) (k : RankKey) :
    t.stored (c.write (rootPuts t oldRoot newRoot)) k = t.stored c k := by
  rw [rootPuts]
  split
  · exact stored_congr (Contents.put_of_ne _ _ (t.name.nodeKey_ne_rootKey k))
  · rfl

theorem stored_tombstonePuts (c : Contents) {k : RankKey} (hk : k ∉ s.removed) :
    t.stored (c.write (tombstonePuts t s)) k = t.stored c k := by
  refine stored_congr (Contents.write_of_forall_ne (fun p hp h => ?_) c)
  obtain ⟨j, hj, rfl⟩ := mem_tombstonePuts hp
  exact hk (t.name.nodeKey_inj.mp h ▸ hj)

/-- A session sees the stored node at a key that is not marked. -/
theorem sees_of_notMem_dirty (hs : s.Sound t c) {k : RankKey} (hk : k ∉ s.dirty) :
    s.sees t c k = t.stored c k := by
  rw [Session.sees]
  cases hn : s.nodes[k]? with
  | none => rfl
  | some n => exact (hs.clean hn hk).symm

/-- After a flush the records spell what the session saw, but for the removed nodes. -/
theorem stored_flush (hs : s.Sound t c) (oldRoot newRoot : NodeRef) {k : RankKey}
    (hk : k ∉ s.removed) :
    t.stored (c.write (flushPuts t s oldRoot newRoot)) k = s.sees t c k := by
  rw [flushPuts, Contents.write_append, Contents.write_append, stored_tombstonePuts _ hk,
    stored_rootPuts, stored_nodePuts hs.fits]
  split
  · rfl
  next hd => exact (sees_of_notMem_dirty hs hd).symm

/-- After a flush the records of removed nodes are empty, if the tree keeps tombstones. -/
theorem write_flush_removed (htombs : t.tombstones = true) (oldRoot newRoot : NodeRef)
    {k : RankKey} (hk : k ∈ s.removed) :
    c.write (flushPuts t s oldRoot newRoot) (t.name.nodeKey k) = some [] := by
  have hput : (t.name.nodeKey k, []) ∈ tombstonePuts t s := by
    rw [tombstonePuts, if_pos htombs]
    exact List.mem_map_of_mem (f := fun k => (t.name.nodeKey k, [])) hk
  rw [flushPuts, Contents.write_append]
  rcases Contents.write_cases (c.write (nodePuts t s s.dirty ++ rootPuts t oldRoot newRoot))
    (tombstonePuts t s) (t.name.nodeKey k) with ⟨-, hne⟩ | ⟨value, hmem, hvalue⟩
  · exact absurd rfl (hne _ hput)
  · obtain ⟨j, -, heq⟩ := mem_tombstonePuts hmem
    rw [hvalue, (Prod.mk.inj heq).2]

/-- After a flush there are no records of removed nodes, if the tree keeps tombstones. -/
theorem stored_flush_removed (htombs : t.tombstones = true) (oldRoot newRoot : NodeRef)
    {k : RankKey} (hk : k ∈ s.removed) :
    t.stored (c.write (flushPuts t s oldRoot newRoot)) k = none := by
  rw [stored, write_flush_removed htombs _ _ hk]

/-- A flush leaves the record of a key that is neither marked nor removed. -/
theorem write_flush_of_notMem (c : Contents) (oldRoot newRoot : NodeRef) {k : RankKey}
    (hdirty : k ∉ s.dirty) (hremoved : k ∉ s.removed) :
    c.write (flushPuts t s oldRoot newRoot) (t.name.nodeKey k) = c (t.name.nodeKey k) := by
  refine Contents.write_of_forall_ne (fun p hp heq => ?_) c
  rcases mem_flushPuts hp with ⟨j, hj, n, -, rfl⟩ | rfl | ⟨j, hj, rfl⟩
  · exact hdirty (t.name.nodeKey_inj.mp heq ▸ hj)
  · exact t.name.nodeKey_ne_rootKey k heq.symm
  · exact hremoved (t.name.nodeKey_inj.mp heq ▸ hj)

/-- A flush puts the marked nodes first, in their order. -/
theorem getElem?_flushPuts (hs : s.Sound t c) (oldRoot newRoot : NodeRef) {count : Nat}
    {k : RankKey} (hk : s.dirty[count]? = some k) :
    ∃ n, (flushPuts t s oldRoot newRoot)[count]? = some (t.name.nodeKey k, Node.encode n) := by
  obtain ⟨n, hput⟩ := getElem?_nodePuts (t := t) (fun k => hs.present) hk
  refine ⟨n, ?_⟩
  rw [flushPuts, List.append_assoc, List.getElem?_append_left]
  · exact hput
  · exact (List.getElem?_eq_some_iff.mp hput).1

/-- The first puts of a flush are those of the first marked nodes and some of the others. -/
theorem take_flush (hs : s.Sound t c) (oldRoot newRoot : NodeRef) (count : Nat) :
    ∃ others, (flushPuts t s oldRoot newRoot).take count =
        nodePuts t s (s.dirty.take count) ++ others ∧
      ∀ p ∈ others, p ∈ rootPuts t oldRoot newRoot ∨ p ∈ tombstonePuts t s := by
  rw [flushPuts, List.append_assoc, List.take_append, take_nodePuts fun k => hs.present]
  exact ⟨_, rfl, fun p hp => List.mem_append.mp (List.mem_of_mem_take hp)⟩

/-- The first puts of a flush are, at the key of a node that is not removed, that of the node if it
is one of the first marked ones. -/
theorem mem_take_flush (hs : s.Sound t c) (oldRoot newRoot : NodeRef) (count : Nat) {k : RankKey}
    (hk : k ∉ s.removed) {r : Bytes} :
    (t.name.nodeKey k, r) ∈ (flushPuts t s oldRoot newRoot).take count ↔
      k ∈ s.dirty.take count ∧ ∃ n, s.sees t c k = some n ∧ r = n.encode := by
  obtain ⟨others, htake, hothers⟩ := take_flush hs oldRoot newRoot count
  rw [htake, List.mem_append]
  constructor
  · rintro (hp | hp)
    · obtain ⟨j, hj, n, hn, heq⟩ := mem_nodePuts hp
      rw [Prod.mk.injEq, t.name.nodeKey_inj] at heq
      obtain ⟨rfl, rfl⟩ := heq
      exact ⟨hj, n, Session.sees_of_node hn, rfl⟩
    · rcases hothers _ hp with hp | hp
      · exact absurd (Prod.mk.inj (mem_rootPuts hp)).1 (t.name.nodeKey_ne_rootKey k)
      · obtain ⟨j, hj, heq⟩ := mem_tombstonePuts hp
        rw [Prod.mk.injEq, t.name.nodeKey_inj] at heq
        exact absurd (heq.1 ▸ hj) hk
  · rintro ⟨hd, n, hn, rfl⟩
    obtain ⟨m, hm⟩ := hs.present (List.mem_of_mem_take hd)
    rw [Session.sees_of_node hm, Option.some.injEq] at hn
    refine .inl (List.mem_filterMap.mpr ⟨k, hd, ?_⟩)
    rw [hm, hn, Option.map_some]

/-- After the first puts of a flush the first marked nodes are those of the session, and the
others are as before, but for the removed ones. -/
theorem stored_take_of_notMem_removed (hs : s.Sound t c) (oldRoot newRoot : NodeRef) (count : Nat)
    {k : RankKey} (hk : k ∉ s.removed) :
    t.stored (c.write ((flushPuts t s oldRoot newRoot).take count)) k =
      if k ∈ s.dirty.take count then s.sees t c k else t.stored c k := by
  obtain ⟨others, htake, hothers⟩ := take_flush hs oldRoot newRoot count
  rw [htake, Contents.write_append, ← stored_nodePuts hs.fits]
  refine stored_congr (Contents.write_of_forall_ne (fun p hp h => ?_) _)
  rcases hothers p hp with hp | hp
  · rw [mem_rootPuts hp] at h
    exact t.name.nodeKey_ne_rootKey k h.symm
  · obtain ⟨j, hj, rfl⟩ := mem_tombstonePuts hp
    exact hk (t.name.nodeKey_inj.mp h ▸ hj)

/-- After the first puts of a flush the pointer to the root is the old or the new one. -/
theorem pointsTo_take_flush {oldRoot newRoot : NodeRef} (h : t.PointsTo c oldRoot) (count : Nat)
    {ref : NodeRef}
    (href : t.PointsTo (c.write ((flushPuts t s oldRoot newRoot).take count)) ref) :
    ref = oldRoot ∨ ref = newRoot := by
  rcases Contents.write_cases c ((flushPuts t s oldRoot newRoot).take count) t.name.rootKey with
    ⟨hsame, -⟩ | ⟨value, hmem, hvalue⟩
  · exact .inl (((Contents.spells_congr hsame).mp href).unique h)
  · rcases mem_flushPuts (List.mem_of_mem_take hmem) with ⟨k, -, n, -, heq⟩ | heq | ⟨k, -, heq⟩
    · exact absurd (Prod.mk.inj heq).1.symm (t.name.nodeKey_ne_rootKey k)
    · obtain ⟨-, rfl⟩ := Prod.mk.inj heq
      have hput : c.put t.name.rootKey ((newRoot.map RankKey.encode).getD []) t.name.rootKey =
          some ((newRoot.map RankKey.encode).getD []) := Contents.put_self ..
      exact .inr (((Contents.spells_congr (hvalue.trans hput.symm)).mp href).unique
        (Contents.spells_put c t.name.rootKey newRoot))
    · exact absurd (Prod.mk.inj heq).1.symm (t.name.nodeKey_ne_rootKey k)

/-- The pointer to the root changes only once all marked nodes are written. -/
theorem take_dirty_of_pointsTo (hs : s.Sound t c) {oldRoot newRoot : NodeRef}
    (h : t.PointsTo c oldRoot) {count : Nat} {ref : NodeRef}
    (href : t.PointsTo (c.write ((flushPuts t s oldRoot newRoot).take count)) ref)
    (hne : ref ≠ oldRoot) : s.dirty.take count = s.dirty := by
  refine List.take_of_length_le ?_
  by_contra hlt
  rw [not_le, ← length_nodePuts (t := t) fun k => hs.present] at hlt
  -- else none of the puts is that of the root
  refine hne (((Contents.spells_congr ?_).mp href).unique h)
  rw [flushPuts, List.append_assoc, List.take_append_of_le_length (Nat.le_of_lt hlt)]
  refine Contents.write_of_forall_ne (fun p hp heq => ?_) c
  obtain ⟨k, -, n, -, rfl⟩ := mem_nodePuts (List.mem_of_mem_take hp)
  exact t.name.nodeKey_ne_rootKey k heq

/-- After the first puts of a flush every record is as before, that of a marked node, or empty. -/
theorem stored_take_flush (hs : s.Sound t c) (oldRoot newRoot : NodeRef) (count : Nat)
    {k : RankKey} {n : Node}
    (h : t.stored (c.write ((flushPuts t s oldRoot newRoot).take count)) k = some n) :
    t.stored c k = some n ∨ k ∈ s.dirty ∧ s.sees t c k = some n := by
  rcases Contents.write_cases c ((flushPuts t s oldRoot newRoot).take count) (t.name.nodeKey k) with
    ⟨hsame, -⟩ | ⟨value, hmem, hvalue⟩
  · exact .inl ((stored_congr hsame).symm.trans h)
  · obtain ⟨record, hrecord, hne, hdecode⟩ := stored_eq_some.mp h
    rw [hvalue] at hrecord
    cases hrecord
    rcases mem_flushPuts (List.mem_of_mem_take hmem) with ⟨j, hj, m, hm, heq⟩ | heq | ⟨j, -, heq⟩
    · rw [Prod.mk.injEq, t.name.nodeKey_inj] at heq
      obtain ⟨rfl, rfl⟩ := heq
      rw [Node.decode_encode (hs.fits hm)] at hdecode
      cases hdecode
      exact .inr ⟨hj, Session.sees_of_node hm⟩
    · exact absurd (congrArg Prod.fst heq) (t.name.nodeKey_ne_rootKey k)
    · exact absurd (Prod.mk.inj heq).2 hne

theorem pointsTo_rootPuts {oldRoot : NodeRef} (h : t.PointsTo c oldRoot) (newRoot : NodeRef) :
    t.PointsTo (c.write (rootPuts t oldRoot newRoot)) newRoot := by
  rw [rootPuts]
  split
  · exact Contents.spells_put ..
  next hroot =>
    rw [not_not] at hroot
    exact hroot ▸ h

/-- After a flush the root pointer has its new value. -/
theorem pointsTo_flush {oldRoot : NodeRef} (h : t.PointsTo c oldRoot) (newRoot : NodeRef)
    (s : Session) :
    t.PointsTo (c.write (flushPuts t s oldRoot newRoot)) newRoot := by
  have haway : ∀ {puts : List (Bytes × Bytes)}, (∀ p ∈ puts, ∃ k, p.1 = t.name.nodeKey k) →
      ∀ c : Contents, c.write puts t.name.rootKey = c t.name.rootKey := by
    intro puts hputs c
    refine Contents.write_of_forall_ne (fun p hp => ?_) c
    obtain ⟨k, hk⟩ := hputs p hp
    rw [hk]
    exact t.name.nodeKey_ne_rootKey k
  have htombs : ∀ p ∈ tombstonePuts t s, ∃ k, p.1 = t.name.nodeKey k := by
    intro p hp
    obtain ⟨k, -, rfl⟩ := mem_tombstonePuts hp
    exact ⟨k, rfl⟩
  have hnodes : ∀ p ∈ nodePuts t s s.dirty, ∃ k, p.1 = t.name.nodeKey k := by
    intro p hp
    obtain ⟨k, -, n, -, rfl⟩ := mem_nodePuts hp
    exact ⟨k, rfl⟩
  rw [flushPuts, Contents.write_append, Contents.write_append, PointsTo,
    Contents.spells_congr (haway htombs _)]
  apply pointsTo_rootPuts
  rw [PointsTo, Contents.spells_congr (haway hnodes c)]
  exact h

end Tree

end Leaderboard
