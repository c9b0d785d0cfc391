import Leaderboard.Proofs.Cache.Eviction

/-!
# The invariant of a cache

A place in the ghost queue counts for its key only while the key has the tag of the
place.  `Cache.Tagged` says that every tag is one of the last place of its key.
Forgetting the oldest places keeps that, since the tag goes with the place it is of.

`Cache.Kept` is what is true of a cache all the time: no more entries and no more
ghosts than the capacity, each key with an entry in one queue (`Cache.Queued`), reads
up to three, and tags only for keys without an entry.  A key that stays keeps it, and
so do a key that leaves, one that is put in, and hence every read and every insertion
(`Kept.get`, `Kept.insert`).  `run_representation` spells it out for what comes of an
empty cache.
-/

namespace Leaderboard

namespace Cache

open Relation (ReflTransGen)

variable {κ ν : Type} [Ord κ]

/-! ## Ghosts -/

/-- A key is no longer remembered with its oldest place, if its tag is of that place. -/
def expire (tags : Std.TreeMap κ Nat) (ghost : κ × Nat) : Std.TreeMap κ Nat :=
  if tags[ghost.1]? = some ghost.2 then tags.erase ghost.1 else tags

theorem forget_eq (c : Cache κ ν) :
    c.forget = { c with
      ghosts := c.ghosts.drop (c.ghosts.length - c.capacity)
      tags := (c.ghosts.take (c.ghosts.length - c.capacity)).foldl expire c.tags } := rfl

/-- The tags go up along the ghost queue, and the tag of a key is of its last place. -/
structure Tagged (ghosts : List (κ × Nat)) (tags : Std.TreeMap κ Nat) (lastTag : Nat) : Prop where
  increasing : ghosts.Pairwise (fun older newer => older.2 < newer.2)
  le_last : ∀ ghost ∈ ghosts, ghost.2 ≤ lastTag
  mem : ∀ ⦃key tag⦄, tags[key]? = some tag → (key, tag) ∈ ghosts
  latest : ∀ ⦃key tag⦄, tags[key]? = some tag → ∀ ghost ∈ ghosts, ghost.1 = key → ghost.2 ≤ tag

section

variable [Std.TransOrd κ]

theorem getElem?_of_expire {tags : Std.TreeMap κ Nat} {ghost : κ × Nat} {key : κ} {tag : Nat}
    (h : (expire tags ghost)[key]? = some tag) : (key, tag) ≠ ghost ∧ tags[key]? = some tag := by
  rw [expire] at h
  split at h
  · obtain ⟨hne, htag⟩ := getElem?_of_erase h
    exact ⟨fun heq => hne (congrArg Prod.fst heq), htag⟩
  · rename_i hother
    refine ⟨?_, h⟩
    rintro rfl
    exact hother h

/-- No key comes to be remembered by forgetting. -/
theorem mem_of_mem_expired {ghosts : List (κ × Nat)} {tags : Std.TreeMap κ Nat} {key : κ}
    (h : key ∈ ghosts.foldl expire tags) : key ∈ tags := by
  induction ghosts generalizing tags with
  | nil => exact h
  | cons ghost rest ih =>
      obtain ⟨tag, htag⟩ := getElem?_of_mem (ih h)
      exact mem_of_getElem? (getElem?_of_expire htag).2

namespace Tagged

variable {ghosts : List (κ × Nat)} {tags : Std.TreeMap κ Nat} {lastTag : Nat}

theorem nil : Tagged [] (∅ : Std.TreeMap κ Nat) 0 where
  increasing := .nil
  le_last := fun _ h => nomatch h
  mem := fun key tag h => by
    rw [Std.TreeMap.getElem?_emptyc] at h
    cases h
  latest := fun _ _ _ _ h => nomatch h

theorem expire {ghost : κ × Nat} (h : Tagged (ghost :: ghosts) tags lastTag) :
    Tagged ghosts (expire tags ghost) lastTag where
  increasing := h.increasing.of_cons
  le_last := fun other hother => h.le_last other (List.mem_cons_of_mem ghost hother)
  mem := fun key tag htag => by
    obtain ⟨hne, htag⟩ := getElem?_of_expire htag
    exact (List.mem_cons.mp (h.mem htag)).resolve_left hne
  latest := fun key tag htag other hother =>
    h.latest (getElem?_of_expire htag).2 other (List.mem_cons_of_mem ghost hother)

theorem forget (h : Tagged ghosts tags lastTag) (n : Nat) :
    Tagged (ghosts.drop n) ((ghosts.take n).foldl Cache.expire tags) lastTag := by
  induction n generalizing ghosts tags with
  | zero => exact h
  | succ n ih =>
      cases ghosts with
      | nil => exact h
      | cons ghost rest => exact ih h.expire

/-- A key is remembered under a new tag. -/
theorem remember [Std.LawfulEqOrd κ] (h : Tagged ghosts tags lastTag) (key : κ) :
    Tagged (ghosts ++ [(key, lastTag + 1)]) (tags.insert key (lastTag + 1)) (lastTag + 1) where
  increasing := by
    refine List.pairwise_append.mpr ⟨h.increasing, List.pairwise_singleton _ _, ?_⟩
    intro older holder newer hnewer
    rw [List.mem_singleton.mp hnewer]
    exact Nat.lt_succ_of_le (h.le_last older holder)
  le_last := by
    intro ghost hghost
    obtain hghost | hghost := List.mem_append.mp hghost
    · exact Nat.le_succ_of_le (h.le_last ghost hghost)
    · exact Nat.le_of_eq (congrArg Prod.snd (List.mem_singleton.mp hghost))
  mem := by
    intro k tag htag
    obtain ⟨rfl, rfl⟩ | ⟨-, htag⟩ := getElem?_of_insert htag
    · exact List.mem_append_right _ List.mem_cons_self
    · exact List.mem_append_left _ (h.mem htag)
  latest := by
    intro k tag htag ghost hghost hkey
    obtain hghost | hghost := List.mem_append.mp hghost
    · obtain ⟨-, rfl⟩ | ⟨-, htag⟩ := getElem?_of_insert htag
      · exact Nat.le_succ_of_le (h.le_last ghost hghost)
      · exact h.latest htag ghost hghost hkey
    · rw [List.mem_singleton.mp hghost] at hkey ⊢
      obtain ⟨-, rfl⟩ | ⟨hne, -⟩ := getElem?_of_insert htag
      · exact Nat.le_refl _
      · exact absurd hkey.symm hne

theorem erase (h : Tagged ghosts tags lastTag) (key : κ) :
    Tagged ghosts (tags.erase key) lastTag where
  increasing := h.increasing
  le_last := h.le_last
  mem := fun _ _ htag => h.mem (getElem?_of_erase htag).2
  latest := fun _ _ htag => h.latest (getElem?_of_erase htag).2

omit [Std.TransOrd κ] in
/-- The place that the tag of a key is of, among the others. -/
theorem place (h : Tagged ghosts tags lastTag) {key : κ} {tag : Nat}
    (htag : tags[key]? = some tag) :
    ∃ before after, ghosts = before ++ (key, tag) :: after ∧
      (∀ ghost ∈ before ++ after, ghost.2 ≠ tag) ∧ ∀ ghost ∈ after, ghost.1 ≠ key := by
  obtain ⟨before, after, rfl⟩ := List.append_of_mem (h.mem htag)
  obtain ⟨-, hafter, hbefore⟩ := List.pairwise_append.mp h.increasing
  have hlt : ∀ ghost ∈ after, tag < ghost.2 := (List.pairwise_cons.mp hafter).1
  refine ⟨before, after, rfl, ?_, ?_⟩
  · intro ghost hghost
    obtain hghost | hghost := List.mem_append.mp hghost
    · exact Nat.ne_of_lt (hbefore ghost hghost (key, tag) List.mem_cons_self)
    · exact Nat.ne_of_gt (hlt ghost hghost)
  · intro ghost hghost hkey
    have hmem : ghost ∈ before ++ (key, tag) :: after :=
      List.mem_append_right _ (List.mem_cons_of_mem _ hghost)
    exact absurd (hlt ghost hghost) (Nat.not_lt.mpr (h.latest htag ghost hmem hkey))

end Tagged

theorem mem_tags_remember {c : Cache κ ν} {key k : κ} [Std.LawfulEqOrd κ]
    (h : k ∈ (c.remember key).tags) : k = key ∨ k ∈ c.tags := by
  rw [remember, forget_eq] at h
  obtain ⟨tag, htag⟩ := getElem?_of_mem (mem_of_mem_expired h)
  obtain ⟨rfl, -⟩ | ⟨-, htag⟩ := getElem?_of_insert htag
  · exact .inl rfl
  · exact .inr (mem_of_getElem? htag)

omit [Std.TransOrd κ] in
theorem length_ghosts_remember (c : Cache κ ν) (key : κ) :
    (c.remember key).ghosts.length ≤ c.capacity := by
  rw [remember, forget_eq, List.length_drop]
  dsimp only
  omega

end

/-! ## Queues for new keys -/

section

variable (c : Cache κ ν) (key : κ)

theorem capacity_enqueue : (c.enqueue key).capacity = c.capacity := by
  rw [enqueue]
  split <;> rfl

theorem ghosts_enqueue : (c.enqueue key).ghosts = c.ghosts := by
  rw [enqueue]
  split <;> rfl

theorem lastTag_enqueue : (c.enqueue key).lastTag = c.lastTag := by
  rw [enqueue]
  split <;> rfl

theorem perm_enqueue :
    ((c.enqueue key).small ++ (c.enqueue key).main).Perm (key :: (c.small ++ c.main)) := by
  rw [enqueue]
  split
  · rw [← List.append_assoc]
    exact List.perm_append_singleton key _
  · rw [List.append_assoc, List.singleton_append]
    exact List.perm_middle

theorem tagged_enqueue [Std.TransOrd κ] {c : Cache κ ν} (h : Tagged c.ghosts c.tags c.lastTag)
    (key : κ) :
    Tagged (c.enqueue key).ghosts (c.enqueue key).tags (c.enqueue key).lastTag := by
  rw [enqueue]
  split
  · exact h.erase key
  · exact h

theorem mem_tags_enqueue [Std.TransOrd κ] {c : Cache κ ν} {key k : κ}
    (h : k ∈ (c.enqueue key).tags) : k ≠ key ∧ k ∈ c.tags := by
  rw [enqueue] at h
  split at h
  · obtain ⟨hne, hk⟩ := Std.TreeMap.mem_erase.mp h
    exact ⟨fun heq => hne (heq ▸ Std.ReflCmp.compare_self), hk⟩
  · rename_i hkey
    refine ⟨?_, h⟩
    rintro rfl
    exact hkey (Std.TreeMap.contains_iff_mem.mpr h)

end

theorem Inserted.capacity_eq {c c' : Cache κ ν} {key : κ} {value : ν} {ds : List (Departure κ ν)}
    (h : Inserted c key value ds c') : c'.capacity = c.capacity := by
  cases h with
  | replaced he => rfl
  | entered hnew hroom => exact capacity_enqueue c key
  | @evicting d c₁ hnew hfull hevicts =>
      exact (capacity_enqueue c₁ key).trans hevicts.capacity_eq

/-! ## What is true of a cache all the time -/

section

variable [Std.TransOrd κ] [Std.LawfulEqOrd κ]

/-- The sizes, the queues, the reads and the tags of a cache are as they should be. -/
structure Kept (c : Cache κ ν) : Prop where
  capacity_pos : 0 < c.capacity
  size_le : c.size ≤ c.capacity
  queued : c.Queued
  reads_le : ∀ ⦃key : κ⦄ ⦃e : Entry ν⦄, c.entries[key]? = some e → e.reads ≤ maxReads
  tagged : Tagged c.ghosts c.tags c.lastTag
  ghosts_le : c.ghosts.length ≤ c.capacity
  apart : ∀ ⦃key⦄, key ∈ c.tags → key ∉ c.entries

omit [Std.LawfulEqOrd κ] in
theorem kept_ofCapacity (capacity : Nat) : (ofCapacity capacity : Cache κ ν).Kept where
  capacity_pos := Nat.lt_of_lt_of_le Nat.zero_lt_one (Nat.le_max_right _ _)
  size_le := Nat.zero_le _
  queued := .refl _
  reads_le := fun key e he => by
    have hempty : (∅ : Std.TreeMap κ (Entry ν))[key]? = none := Std.TreeMap.getElem?_emptyc
    rw [ofCapacity, hempty] at he
    cases he
  tagged := .nil
  ghosts_le := Nat.zero_le _
  apart := fun _ hkey => absurd hkey Std.TreeMap.not_mem_emptyc

namespace Kept

variable {c c' : Cache κ ν} {key : κ} {d : Departure κ ν}

/-- Keys may change places, and a key that has an entry may get another one. -/
theorem recount (h : c.Kept) {small main : List κ}
    (hperm : (small ++ main).Perm (c.small ++ c.main)) (hkey : key ∈ c.entries)
    {e : Entry ν} (hreads : e.reads ≤ maxReads) (hits : Nat) :
    Kept { c with small, main, entries := c.entries.insert key e, hits } where
  capacity_pos := h.capacity_pos
  size_le := le_of_eq_of_le (Std.TreeMap.size_insert.trans (if_pos hkey)) h.size_le
  queued := hperm.trans (h.queued.trans (keys_insert_perm hkey e))
  reads_le := by
    intro k e' he'
    obtain ⟨-, rfl⟩ | ⟨-, he'⟩ := getElem?_of_insert he'
    · exact hreads
    · exact h.reads_le he'
  tagged := h.tagged
  ghosts_le := h.ghosts_le
  apart := fun _ htag hk => h.apart htag (mem_of_mem_insert hkey hk)

theorem of_stays (h : c.Kept) (hstays : Stays c c') : c'.Kept := by
  have hperm := hstays.perm
  cases hstays with
  | promote hsmall he hreads =>
      exact h.recount hperm (mem_of_getElem? he) (Nat.zero_le _) c.hits
  | requeue hmain he hreads =>
      exact h.recount hperm (mem_of_getElem? he)
        (Nat.le_trans (Nat.sub_le _ _) (h.reads_le he)) c.hits

theorem of_leaves (h : c.Kept) (hleaves : Leaves c d c') : c'.Kept := by
  have hqueued := h.queued.of_leaves hleaves
  have hsize : c'.size ≤ c'.capacity := by
    have hlt := size_of_keys_perm hleaves.keys_perm
    rw [hleaves.capacity_eq]
    exact Nat.le_trans (Nat.le_of_succ_le (Nat.le_of_eq hlt)) h.size_le
  cases hleaves with
  | @small key rest e hsmall he hreads =>
      exact {
        capacity_pos := h.capacity_pos
        size_le := hsize
        queued := hqueued
        reads_le := fun _ _ he' => h.reads_le (getElem?_of_erase he').2
        tagged := (h.tagged.remember key).forget _
        ghosts_le := length_ghosts_remember _ key
        apart := by
          intro k htag hk
          obtain ⟨hne, hk⟩ := Std.TreeMap.mem_erase.mp hk
          obtain rfl | htag := mem_tags_remember htag
          · exact hne Std.ReflCmp.compare_self
          · exact h.apart htag hk }
  | @main key rest e hroom hmain he hreads =>
      exact {
        capacity_pos := h.capacity_pos
        size_le := hsize
        queued := hqueued
        reads_le := fun _ _ he' => h.reads_le (getElem?_of_erase he').2
        tagged := h.tagged
        ghosts_le := h.ghosts_le
        apart := fun k htag hk => h.apart htag (Std.TreeMap.mem_erase.mp hk).2 }

theorem of_evicts (h : c.Kept) (hevicts : Evicts c d c') : c'.Kept :=
  hevicts.induct (fun _ _ hstays hc => hc.of_stays hstays)
    (fun _ _ _ hleaves hc => hc.of_leaves hleaves) h

/-- A key without an entry is put into one of the queues, and is not remembered any
longer. -/
theorem enter (h : c.Kept) (hnew : key ∉ c.entries) (hroom : c.size < c.capacity) (value : ν) :
    (c.enter key value).Kept where
  capacity_pos := by rw [Cache.enter, capacity_enqueue]; exact h.capacity_pos
  size_le := by
    show ((c.enqueue key).entries.insert key _).size ≤ (c.enqueue key).capacity
    rw [entries_enqueue, capacity_enqueue]
    exact le_of_eq_of_le (Std.TreeMap.size_insert.trans (if_neg hnew)) hroom
  queued := by
    show ((c.enqueue key).small ++ (c.enqueue key).main).Perm
      ((c.enqueue key).entries.insert key _).keys
    rw [entries_enqueue]
    exact (perm_enqueue c key).trans
      ((h.queued.cons key).trans (cons_keys_perm_insert hnew _))
  reads_le := by
    intro k e he
    obtain ⟨-, rfl⟩ | ⟨-, he⟩ := getElem?_of_insert he
    · exact Nat.zero_le _
    · rw [entries_enqueue] at he
      exact h.reads_le he
  tagged := tagged_enqueue h.tagged key
  ghosts_le := by
    show (c.enqueue key).ghosts.length ≤ (c.enqueue key).capacity
    rw [ghosts_enqueue, capacity_enqueue]
    exact h.ghosts_le
  apart := by
    intro k htag hk
    obtain ⟨hne, htag⟩ := mem_tags_enqueue htag
    obtain heq | hk := Std.TreeMap.mem_insert.mp hk
    · exact hne (Std.LawfulEqOrd.eq_of_compare heq).symm
    · rw [entries_enqueue] at hk
      exact h.apart htag hk

theorem get (h : c.Kept) (key : κ) : (c.get key).2.Kept := by
  rw [Cache.get]
  cases he : c.entries[key]? with
  | none =>
      exact ⟨h.capacity_pos, h.size_le, h.queued, h.reads_le, h.tagged, h.ghosts_le, h.apart⟩
  | some e => exact h.recount (.refl _) (mem_of_getElem? he) (Nat.min_le_right _ _) (c.hits + 1)

theorem inserted (h : c.Kept) {value : ν} {ds : List (Departure κ ν)}
    (hinserted : Inserted c key value ds c') : c'.Kept := by
  cases hinserted with
  | @replaced e he =>
      have hreads : e.reads ≤ maxReads := h.reads_le he
      exact h.recount (e := { e with value }) (.refl _) (mem_of_getElem? he) hreads c.hits
  | entered hnew hroom => exact h.enter hnew hroom value
  | evicting hnew hfull hevicts =>
      exact (h.of_evicts hevicts).enter (fun hk => hnew (hevicts.mem hk))
        (hevicts.size_lt hfull) value

theorem insert_outcome (h : c.Kept) (key : κ) (value : ν) :
    (c.insert key value).1 = (c.leaving key).map Departure.entry ∧
      Inserted c key value (c.leaving key) (c.insert key value).2 :=
  Cache.insert_outcome h.queued h.capacity_pos h.size_le key value

theorem insert (h : c.Kept) (key : κ) (value : ν) : (c.insert key value).2.Kept :=
  h.inserted (h.insert_outcome key value).2

end Kept

end

/-! ## Runs -/

/-- What can be asked of a cache. -/
inductive Op (κ ν : Type) where
  | get (key : κ)
  | insert (key : κ) (value : ν)

section

variable [Std.TransOrd κ] [Std.LawfulEqOrd κ]

/-- The cache after an operation. -/
def after (c : Cache κ ν) : Op κ ν → Cache κ ν
  | .get key => (c.get key).2
  | .insert key value => (c.insert key value).2

/-- The cache that comes of an empty one by some operations. -/
def run (capacity : Nat) (ops : List (Op κ ν)) : Cache κ ν := ops.foldl after (ofCapacity capacity)

theorem Kept.after {c : Cache κ ν} (h : c.Kept) (op : Op κ ν) : (c.after op).Kept := by
  cases op with
  | get key => exact h.get key
  | insert key value => exact h.insert key value

theorem Kept.foldl {c : Cache κ ν} (h : c.Kept) (ops : List (Op κ ν)) :
    (ops.foldl Cache.after c).Kept := by
  induction ops generalizing c with
  | nil => exact h
  | cons op ops ih => exact ih (h.after op)

theorem kept_run (capacity : Nat) (ops : List (Op κ ν)) : (run capacity ops).Kept :=
  (kept_ofCapacity capacity).foldl ops

theorem Kept.capacity_after {c : Cache κ ν} (h : c.Kept) (op : Op κ ν) :
    (c.after op).capacity = c.capacity := by
  cases op with
  | get key =>
      show (c.get key).2.capacity = c.capacity
      rw [Cache.get]
      cases c.entries[key]? <;> rfl
  | insert key value =>
      exact (h.insert_outcome key value).2.capacity_eq

theorem capacity_run (capacity : Nat) (ops : List (Op κ ν)) :
    (run capacity ops).capacity = max capacity 1 := by
  have hfold : ∀ {c : Cache κ ν}, c.Kept → (ops.foldl Cache.after c).capacity = c.capacity := by
    induction ops with
    | nil => exact fun _ => rfl
    | cons op ops ih => exact fun h => (ih (h.after op)).trans (h.capacity_after op)
  exact hfold (kept_ofCapacity capacity)

/-- After any reads and insertions a cache is as it should be.  It has at most as many
entries as it may have, each key with an entry is in the queues once and no other is,
and no more than three reads count.  The ghosts are no more than the capacity.  A key
that is remembered has no entry; its tag is of one place of the ghost queue, which is
the last of the key. -/
theorem run_representation (capacity : Nat) (ops : List (Op κ ν)) :
    let c := run capacity ops
    c.size ≤ max capacity 1 ∧
      (c.small ++ c.main).Nodup ∧ (∀ key, key ∈ c.small ++ c.main ↔ key ∈ c.entries) ∧
      (∀ (key : κ) (e : Entry ν), c.entries[key]? = some e → e.reads ≤ 3) ∧
      c.ghosts.length ≤ max capacity 1 ∧
      ∀ key tag, c.tags[key]? = some tag → key ∉ c.entries ∧
        ∃ before after, c.ghosts = before ++ (key, tag) :: after ∧
          (∀ ghost ∈ before ++ after, ghost.2 ≠ tag) ∧ ∀ ghost ∈ after, ghost.1 ≠ key := by
  intro c
  have h : c.Kept := kept_run capacity ops
  have hcapacity : c.capacity = max capacity 1 := capacity_run capacity ops
  refine ⟨hcapacity ▸ h.size_le, ?_, ?_, ?_, hcapacity ▸ h.ghosts_le, ?_⟩
  · exact h.queued.nodup_iff.mpr Std.TreeMap.nodup_keys
  · exact fun key => h.queued.mem_iff.trans Std.TreeMap.mem_keys
  · exact fun key e he => h.reads_le he
  · exact fun key tag htag => ⟨h.apart (mem_of_getElem? htag), h.tagged.place htag⟩

/-- The first of three keys in a cache for two is evicted and remembered. -/
theorem run_representation_remembered :
    let c : Cache Nat Nat := run 2 [.insert 1 10, .insert 2 20, .insert 3 30]
    c.tags[1]? = some 1 ∧ 1 ∉ c.entries ∧ c.size ≤ 2 := by
  intro c
  have h := run_representation 2 [.insert 1 10, .insert 2 20, .insert (3 : Nat) (30 : Nat)]
  have htag : c.tags[1]? = some 1 := by decide +kernel
  exact ⟨htag, (h.2.2.2.2.2 1 1 htag).1, h.1⟩

end

end Cache

end Leaderboard
