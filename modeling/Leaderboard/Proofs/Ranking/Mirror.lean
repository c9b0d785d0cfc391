import Leaderboard.Proofs.Ranking.Listing

/-!
# Trees with the ranks of their entities

Next to a tree a ranking keeps a record of the rank key of every entity.
`Tree.Mirrors` says that the records and the tree are each other's inverse: an
entity is recorded with a key just if the tree has it there.

The tree and the record of an entity are written one after the other, and in
between they differ: the records spell the old ranks, and the tree has the entities
elsewhere (`Tree.Splits`).  So the steps of an update are first followed on the tree
alone (`Tree.Splits.deleteAt_eval`, `Tree.Splits.insertNew_eval`), and the record is
put at the end (`Tree.Splits.put_record`).
-/

namespace Leaderboard

/-- A map has every entity at its rank key and at no other. -/
def Placements.Inverse (m : Placements) (ranks : String → NodeRef) : Prop :=
  ∀ k e, m[k]? = some e ↔ ranks e = some k

namespace Placements.Inverse

variable {m : Placements} {ranks : String → NodeRef}

theorem mem (h : Inverse m ranks) {k : RankKey} : k ∈ m ↔ ∃ e, ranks e = some k := by
  rw [Std.TreeMap.mem_iff_isSome_getElem?, Option.isSome_iff_exists]
  simp only [h k]

/-- An entity loses its rank. -/
theorem erase (h : Inverse m ranks) {e : String} {k : RankKey} (hk : ranks e = some k) :
    Inverse (m.erase k) (Function.update ranks e none) := by
  intro j f
  rw [Tree.getElem?_erase]
  by_cases hf : f = e
  · subst hf
    rw [Function.update_self]
    by_cases hj : j = k
    · simp [hj]
    · rw [if_neg hj, h]
      simp [hk, Ne.symm hj]
  · rw [Function.update_of_ne hf]
    by_cases hj : j = k
    · subst hj
      have hne : ranks f ≠ some j := by
        intro hfj
        have hme := (h j e).mpr hk
        rw [(h j f).mpr hfj] at hme
        exact hf (Option.some.inj hme)
      simp [hne]
    · rw [if_neg hj, h]

/-- An entity without a rank gets one that is free. -/
theorem insert (h : Inverse m ranks) {e : String} {k : RankKey} (hk : k ∉ m)
    (he : ranks e = none) : Inverse (m.insertIfNew k e) (Function.update ranks e (some k)) := by
  intro j f
  rw [Tree.getElem?_insertIfNew]
  by_cases hf : f = e
  · subst hf
    rw [Function.update_self]
    by_cases hj : j = k
    · simp [hj, hk]
    · rw [if_neg fun h => hj h.1, h, he]
      simp [Ne.symm hj]
  · rw [Function.update_of_ne hf]
    by_cases hj : j = k
    · subst hj
      have hne : ranks f ≠ some j := fun hfj => hk (h.mem.mpr ⟨f, hfj⟩)
      simp [hk, hne, Ne.symm hf]
    · rw [if_neg fun h => hj h.1, h]

/-- No entity stands in the map twice. -/
theorem nodup_entities (h : Inverse m ranks) : (m.toList.map Prod.snd).Nodup := by
  have hkeys : (m.toList.map Prod.fst).Nodup := by
    rw [Std.TreeMap.map_fst_toList_eq_keys]
    exact Std.TreeMap.nodup_keys
  refine List.Nodup.map_on ?_ hkeys.of_map
  rintro ⟨j, e⟩ hj ⟨k, f⟩ hk hef
  cases hef
  rw [Std.TreeMap.mem_toList_iff_getElem?_eq_some, h] at hj hk
  rw [hj] at hk
  cases hk
  rfl

/-- The entities in the map are those that have a rank. -/
theorem mem_entities (h : Inverse m ranks) {e : String} :
    e ∈ m.toList.map Prod.snd ↔ ∃ k, ranks e = some k := by
  constructor
  · intro he
    obtain ⟨⟨k, f⟩, hk, rfl⟩ := List.mem_map.mp he
    exact ⟨k, (h k f).mp (Std.TreeMap.mem_toList_iff_getElem?_eq_some.mp hk)⟩
  · rintro ⟨k, hk⟩
    exact List.mem_map.mpr
      ⟨(k, e), Std.TreeMap.mem_toList_iff_getElem?_eq_some.mpr ((h k e).mpr hk), rfl⟩

end Placements.Inverse

namespace Tree

/-- The tree has every entity at the rank key that its record spells, and nothing
else. -/
structure Mirrors (t : Tree) (c : Contents) (ranks : String → NodeRef) : Prop where
  /-- The tree has every entity at its rank key. -/
  tree : ∃ m, t.Models c m ∧ Placements.Inverse m ranks
  /-- The records spell the rank keys. -/
  records : ∀ e, c.Spells (t.name.entityKey e) (ranks e)

/-- The records spell some ranks, and the tree has the entities at others or the same. -/
structure Splits (t : Tree) (c : Contents) (ranks placed : String → NodeRef) : Prop where
  /-- The tree has every entity at its place. -/
  tree : ∃ m, t.Models c m ∧ Placements.Inverse m placed
  /-- The records spell the rank keys. -/
  records : ∀ e, c.Spells (t.name.entityKey e) (ranks e)
  /-- Each of them is read back. -/
  made : ∀ e, ∀ k ∈ ranks e, k.Made

variable {t : Tree} {c : Contents} {m : Placements} {ranks placed : String → NodeRef}

/-- An insert at a key that the tree has puts nothing. -/
theorem Models.insert_of_mem (h : t.Models c m) (hreach : Avl.maxHeight ≤ t.reach)
    {key : RankKey} (hkey : key ∈ m) (payload : String) :
    (t.insert key payload).eval c = (.ok false, []) := by
  obtain ⟨x, hx⟩ := h
  cases hins : x.insert key payload with
  | none => exact insert_eval_of_none hx.valid hreach hins
  | some x' =>
      obtain ⟨hnew, -⟩ := Avl.mem_insert hx.holds.ordered hx.holds.balanced hins
      exact absurd (hx.mem_keys.mpr hkey) hnew

theorem mirrors_empty (h : t.PointsTo c none) (hrecords : ∀ e, c.Spells (t.name.entityKey e) none) :
    t.Mirrors c fun _ => none :=
  ⟨⟨∅, models_empty h, fun k e => by simp⟩, hrecords⟩

namespace Splits

theorem recorded_eval (h : t.Splits c ranks placed) (e : String) :
    (Ranking.recorded t e).eval c = (.ok (ranks e), []) :=
  (h.records e).getRef_eval (h.made e)

/-- What the tree has at a key. -/
theorem search_eval (h : t.Splits c ranks placed) (hreach : Avl.maxHeight ≤ t.reach)
    (k : RankKey) :
    ∃ payload, (t.search k).eval c = (.ok payload, []) ∧
      ∀ e, payload = some e ↔ placed e = some k := by
  obtain ⟨m, hm, hi⟩ := h.tree
  exact ⟨m[k]?, hm.search hreach k, hi k⟩

/-- Two entities are not in one place. -/
theorem placed_inj (h : t.Splits c ranks placed) {e f : String} {k : RankKey}
    (he : placed e = some k) (hf : placed f = some k) : e = f := by
  obtain ⟨m, -, hi⟩ := h.tree
  exact Option.some.inj (((hi k e).mpr he).symm.trans ((hi k f).mpr hf))

/-- Puts of the tree leave the records. -/
theorem write (h : t.Splits c ranks placed) {puts : List (Bytes × Bytes)} (hown : t.Own puts)
    (hm : t.Models (c.write puts) m) {placed' : String → NodeRef} (hi : m.Inverse placed') :
    t.Splits (c.write puts) ranks placed' where
  tree := ⟨m, hm, hi⟩
  records e := (Contents.spells_congr (hown.write_entityKey c e)).mpr (h.records e)
  made := h.made

/-- An entity is deleted from the tree, if it is there. -/
theorem deleteAt_eval (h : t.Splits c ranks placed) (hreach : Avl.maxHeight ≤ t.reach)
    (e : String) :
    ∃ puts, (t.deleteAt (placed e)).eval c = (.ok (placed e).isSome, puts) ∧ t.Own puts ∧
      t.Splits (c.write puts) ranks (Function.update placed e none) := by
  cases he : placed e with
  | none =>
      refine ⟨[], rfl, by simp [Own], ?_⟩
      rw [← he, Function.update_eq_self]
      exact h
  | some k =>
      obtain ⟨m, hm, hi⟩ := h.tree
      obtain ⟨puts, heval, hown, -, hm'⟩ := hm.delete hreach k
      have hk : m.contains k = true := Std.TreeMap.contains_iff_mem.mpr (hi.mem.mpr ⟨e, he⟩)
      rw [hk] at heval
      exact ⟨puts, heval, hown, h.write hown hm' (hi.erase he)⟩

/-- A place where no entity is has nothing to delete. -/
theorem deleteAt_eval_of_gone (h : t.Splits c ranks placed) (hreach : Avl.maxHeight ≤ t.reach)
    {ref : NodeRef} (hgone : ∀ k ∈ ref, ∀ e, placed e ≠ some k) :
    (t.deleteAt ref).eval c = (.ok false, []) := by
  cases ref with
  | none => rfl
  | some k =>
      obtain ⟨m, hm, hi⟩ := h.tree
      have hk : k ∉ m := fun hk => by
        obtain ⟨e, he⟩ := hi.mem.mp hk
        exact hgone k rfl e he
      obtain ⟨puts, heval, -, hputs, -⟩ := hm.delete hreach k
      rw [contains_eq_false hk, hputs hk] at heval
      exact heval

/-- An entity is inserted where no entity is. -/
theorem insertNew_eval (h : t.Splits c ranks placed) (hreach : Avl.maxHeight ≤ t.reach)
    {e : String} (hfits : Codec.Fits e) {k : RankKey} (hmade : k.Made) (he : placed e = none)
    (hfree : ∀ f, placed f ≠ some k) :
    ∃ puts, (Ranking.insertNew t k e).eval c = (.ok (), puts) ∧ t.Own puts ∧
      t.Splits (c.write puts) ranks (Function.update placed e (some k)) := by
  obtain ⟨m, hm, hi⟩ := h.tree
  have hk : k ∉ m := fun hk => by
    obtain ⟨f, hf⟩ := hi.mem.mp hk
    exact hfree f hf
  obtain ⟨puts, heval, hown, -, hm'⟩ := hm.insert hreach hmade hfits
  rw [contains_eq_false hk] at heval
  exact ⟨puts, Ranking.insertNew_eval heval, hown, h.write hown hm' (hi.insert hk he)⟩

/-- An entity is not inserted where one is. -/
theorem insertNew_eval_of_taken (h : t.Splits c ranks placed) (hreach : Avl.maxHeight ≤ t.reach)
    {f : String} {k : RankKey} (hf : placed f = some k) (e : String) :
    (Ranking.insertNew t k e).eval c = (.error (.occupied (t.name.nodeKey k)), []) := by
  obtain ⟨m, hm, hi⟩ := h.tree
  exact Ranking.insertNew_eval (hm.insert_of_mem hreach (hi.mem.mpr ⟨f, hf⟩) e)

/-- Once the tree is written, the record of the entity is. -/
theorem put_record {e : String} {ref : NodeRef}
    (h : t.Splits c ranks (Function.update ranks e ref)) :
    t.Mirrors (c.put (t.name.entityKey e) ((ref.map RankKey.encode).getD []))
      (Function.update ranks e ref) := by
  obtain ⟨m, hm, hi⟩ := h.tree
  refine ⟨⟨m, hm.put_entityKey e _, hi⟩, fun f => ?_⟩
  by_cases hf : f = e
  · subst hf
    rw [Function.update_self]
    exact Contents.spells_put ..
  · rw [Function.update_of_ne hf]
    refine (Contents.spells_congr (Contents.put_of_ne _ _ ?_)).mpr (h.records f)
    exact mt t.name.entityKey_inj.mp hf

end Splits

namespace Mirrors

/-- Records and tree that mirror each other. -/
theorem splits (h : t.Mirrors c ranks) : t.Splits c ranks ranks := by
  obtain ⟨m, hm, hi⟩ := h.tree
  exact ⟨⟨m, hm, hi⟩, h.records, fun e k hk => hm.made k (hi.mem.mpr ⟨e, hk⟩)⟩

theorem recorded_eval (h : t.Mirrors c ranks) (e : String) :
    (Ranking.recorded t e).eval c = (.ok (ranks e), []) := h.splits.recorded_eval e

/-- The list of all entities, if there are not too many. -/
theorem top_eval (h : t.Mirrors c ranks) {es : List String} (hes : es.Nodup)
    (hranked : ∀ e, e ∈ es ↔ ∃ k, ranks e = some k) (hsize : es.length < UInt64.size) {n : Nat}
    (hn : es.length ≤ n) : ∃ listed, (t.top n).eval c = (.ok listed, []) ∧ listed.Perm es := by
  obtain ⟨m, hm, hi⟩ := h.tree
  have hperm : (m.toList.map Prod.snd).Perm es :=
    (List.perm_ext_iff_of_nodup hi.nodup_entities hes).mpr fun e =>
      hi.mem_entities.trans (hranked e).symm
  have hlength : m.size = es.length := by
    rw [← Std.TreeMap.length_toList, ← hperm.length_eq, List.length_map]
  refine ⟨_, hm.top (hlength ▸ hsize) n, ?_⟩
  rw [List.take_of_length_le, List.map_reverse]
  · exact (List.reverse_perm _).trans hperm
  · rw [List.length_reverse, Std.TreeMap.length_toList]
    omega

end Mirrors

end Tree

end Leaderboard
